import Spintax.Mark
import Spintax.Token

/-!
# Spintax.Journal

What happens while a template is read, for those who listen in.

* `Event`: the three things worth recording.
* `Event.channel`, `Event.message`: how a record is filed and worded.
* `Event.qualified`: the channel that a name stands for.
* `Recorded`: a value with what was heard while it was made.
-/

namespace Spintax

/-- Something that happened while a template was read. -/
inductive Event where
  /-- a source of so many characters is about to be read -/
  | compiling (characters : Nat)
  /-- the text ended at `mark` with blocks still open -/
  | leftOpen (blocks : Nat) (mark : Mark)
  /-- the structure was found at fault, at this token if there is one -/
  | rejected (text : String) (token : Option Token)
deriving DecidableEq

namespace Event

/-- All channels are below this one. -/
def root : String := "rant"

def channel : Event → String
  | .compiling _ => root ++ ".interpreter"
  | .leftOpen _ _ => root ++ ".lexer.core"
  | .rejected _ _ => root ++ ".parser"

def message : Event → String
  | .compiling n => "Compiling template (" ++ toString n ++ " chars)"
  | .leftOpen n m =>
    "End of input with " ++ toString n ++ " unterminated block(s) at "
      ++ toString m.line ++ ":" ++ toString m.column
  | .rejected text token =>
    let shown := match token with
      | some t => t.describe
      | none => "None"
    "Syntax error: " ++ text ++ " (token " ++ shown ++ ")"

/-- The name itself where it is the root or below it, else the name put below the root. -/
def qualified (name : String) : String :=
  if name = root ∨ (root ++ ".").toList.isPrefixOf name.toList then name else root ++ "." ++ name

end Event

/-- A value, and what happened while it was made. -/
structure Recorded (α : Type) where
  value : α
  events : List Event := []

end Spintax
