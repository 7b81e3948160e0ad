import Spintax.Location
import Spintax.Text.Quoted

/-!
# Spintax.Token

The tokens of a template: the two braces, the bar between options, and text. Text is stored as it
will be printed, its escapes already resolved.

* `Token.Kind`, `Token`: what a token is and where it stands.
* `Token.describe`: the form shown in messages.
-/

namespace Spintax

/-- What a token does: opens a block, closes one, separates two options, or is text. -/
inductive Token.Kind where
  | opening
  | closing
  | bar
  | text
deriving DecidableEq

/-- A token. Its value is free: only the scanner makes the value of a brace be that brace. -/
structure Token where
  kind : Token.Kind
  value : String
  location : Location
deriving DecidableEq

namespace Token

def Kind.all : List Kind := [.opening, .closing, .bar, .text]

/-- The name of a kind in messages. -/
def Kind.label : Kind → String
  | .opening => "LBRACE"
  | .closing => "RBRACE"
  | .bar => "PIPE"
  | .text => "TEXT"

/-- Longer values than `shownLength` lose their end in messages. -/
def shownLength : Nat := 20

/-- The first 17 characters of a long value and three dots, or the value. -/
def shortened (value : String) : String :=
  let cs := value.toList
  if cs.length > shownLength then String.ofList (cs.take (shownLength - 3)) ++ "..." else value

/-- Kind, value and place. The file is left out. -/
def describe (t : Token) : String :=
  "Token(" ++ t.kind.label ++ ", " ++ Text.quote (shortened t.value) ++ ", "
    ++ toString t.location.line ++ ":" ++ toString t.location.column ++ ")"

end Token
end Spintax
