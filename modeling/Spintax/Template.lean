import Spintax.Parser
import Spintax.Scanner

/-!
# Spintax.Template

From the text of a template to its tree. The whole text is read into tokens before the first of
them is looked at, so a fault of spelling is reported before any fault of structure.

* `Template.tokens`: the tokens of a text.
* `Template.compile`: the tree of a text.
-/

namespace Spintax.Template

/-- The tokens of a text, or the report of a dangling escape. -/
def tokens (file : Option String) (text : String) : Recorded (Except Diagnostic (List Token)) :=
  let scan := (Scanner.ofText text file).scan
  match scan.ending.diagnostic? file with
  | some d => ⟨.error d, scan.ending.events⟩
  | none => ⟨.ok scan.tokens, scan.ending.events⟩

/-- The tree of a text, with at most `limit` blocks open at once. -/
def compile (limit : Nat) (file : Option String) (text : String) :
    Recorded (Except Diagnostic Tree) :=
  let read := tokens file text
  let begun := .compiling text.length :: read.events
  match read.value with
  | .error d => ⟨.error d, begun⟩
  | .ok ts =>
    let parsed := ({ tokens := ts, file := file, limit := limit : Parser }).report.1
    ⟨parsed.value, begun ++ parsed.events⟩

end Spintax.Template
