import Spintax.Evaluation
import Spintax.Template

/-!
# Spintax.Generation

Text from templates and trees. A template is compiled first; nothing is drawn for one that does
not compile.

* `Input`: what text is made from.
* `Input.toTree`: the tree of an input.
* `run`: the text of one input.
* `runMany`: the texts of several, one after the other with the same source.
-/

namespace Spintax.Generation

inductive Input where
  | source (text : String)
  | tree (t : Tree)

inductive Fault (ε : Type) where
  /-- the template does not compile -/
  | rejected (d : Diagnostic)
  /-- neither a template nor a tree -/
  | notTemplate (typeName : String)
  | evaluation (f : Evaluation.Fault ε)
deriving DecidableEq

/-- What came of a run: the result, the source afterwards, and what happened. -/
structure Outcome (σ ε α : Type) where
  result : Except (Fault ε) α
  source : σ
  events : List Event := []

variable {σ ε : Type}

/-- The tree of an input. Plain text is a template, and no other plain value is accepted. -/
def Input.toTree (limit : Nat) (file : Option String) :
    Input → Recorded (Except (Fault ε) Tree)
  | .source text | .tree (.value (.text text)) =>
    let compiled := Template.compile limit file text
    ⟨compiled.value.mapError .rejected, compiled.events⟩
  | .tree (.value v) => ⟨.error (.notTemplate v.typeName), []⟩
  | .tree t => ⟨.ok t, []⟩

def run (draw : Source σ ε) (limit : Nat) (file : Option String) (input : Input) (s : σ) :
    Outcome σ ε String :=
  let compiled := input.toTree limit file
  match compiled.value with
  | .error f => ⟨.error f, s, compiled.events⟩
  | .ok t =>
    let (result, s) := Evaluation.evaluate draw t s
    ⟨result.mapError .evaluation, s, compiled.events⟩

/-- The texts of all inputs, up to the first that has none. -/
def runMany (draw : Source σ ε) (limit : Nat) (file : Option String) :
    List Input → σ → Outcome σ ε (List String)
  | [], s => ⟨.ok [], s, []⟩
  | input :: inputs, s =>
    let one := run draw limit file input s
    match one.result with
    | .error f => ⟨.error f, one.source, one.events⟩
    | .ok text =>
      let more := runMany draw limit file inputs one.source
      ⟨more.result.map (text :: ·), more.source, one.events ++ more.events⟩

end Spintax.Generation
