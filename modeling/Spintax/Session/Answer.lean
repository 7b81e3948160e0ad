import Spintax.Chooser
import Spintax.Generation
import Spintax.Release
import Spintax.Tree.Revision
import Spintax.TokenStream

/-!
# Spintax.Session.Answer

What a session answers.

* `Failure`: why there is no answer, and `Failure.message`, how that is worded.
* `Answer`: the answers, by what they show.
* `Reply`: an answer or a failure, with the bounds asked of scripted choosers and the records made
  on the way.
-/

namespace Spintax.Session

inductive Failure where
  | diagnostic (d : Diagnostic)
  | build (e : Tree.BuildError)
  | depth (e : Config.DepthError)
  /-- a value or a node without a text -/
  | notEvaluable (typeName : String)
  | notTemplate (typeName : String)
  /-- a value that makes no text of itself -/
  | notRunnable (typeName : String)
  /-- a pick that is no option of its block -/
  | outOfRange (pick : Int)
  | refused (r : Chooser.Refusal)
  | path (e : Tree.PathError)
  | revision (e : Tree.RevisionError)
  /-- something in a collection of different things that has no hash -/
  | unhashable (typeName : String)
  /-- nothing is stored under the name -/
  | noSuchName (name : String)
deriving DecidableEq

namespace Failure

def message : Failure → String
  | .diagnostic d => d.formatted
  | .build e => e.message
  | .depth e => e.message
  | .notEvaluable typeName => "Cannot evaluate " ++ Text.quote typeName
  | .notTemplate typeName => "Expected template text or a parsed tree, got " ++ typeName
  | .notRunnable typeName => Text.quote typeName ++ " object has no attribute 'run'"
  | .outOfRange pick => missMessage pick
  | .refused r => r.message
  | .path e => e.message
  | .revision e => e.message
  | .unhashable typeName => "unhashable type: " ++ Text.quote typeName
  | .noSuchName name => name

def ofEvaluation : Evaluation.Fault Chooser.Refusal → Failure
  | .notEvaluable typeName => .notEvaluable typeName
  | .outOfRange pick => .outOfRange pick
  | .source r => .refused r

def ofGeneration : Generation.Fault Chooser.Refusal → Failure
  | .rejected d => .diagnostic d
  | .notTemplate typeName => .notTemplate typeName
  | .evaluation f => ofEvaluation f

end Failure

/-- Something read from a stream, and the mode and the depth of its scanner afterwards. -/
structure Reading (α : Type) where
  found : α
  mode : Mode
  depth : Nat

/-- What was found, next to the state of the stream's scanner. -/
def Reading.of {α : Type} (s : TokenStream) (found : α) : Reading α :=
  ⟨found, s.scanner.mode, s.scanner.depth⟩

/-- A result, the bounds asked of scripted choosers since the last reply, and the records made
since then. -/
structure Reply (α : Type) where
  result : α
  asked : List Int
  events : List Event

inductive Answer where
  | done
  | tokens (ts : List Token)
  | trace (readings : List (Reading (Except Diagnostic (Option Token))))
  | stream (reading : Reading Unit)
  /-- one token, or none at the end -/
  | delivered (reading : Reading (Except Diagnostic (Option Token)))
  | drained (reading : Reading (Except Diagnostic (List Token)))
  | tree (t : Tree) (description : Option String)
  | output (text : String)
  | outputs (texts : List String)
  | draw (pick : Int)
  | draws (picks : List Int)
  | equal (same : Bool)
  /-- how many different things there are -/
  | count (n : Nat)
  /-- whether two things are equal, and how many different ones they are -/
  | compared (same : Bool) (count : Nat)
  /-- the same for two locations, and whether the first is the unknown one -/
  | comparedLocations (same unknown : Bool) (count : Nat)
  | revised (old new : Tree) (same : Bool)
  | tables (t : Release.Tables)
  | text (s : String)
  | token (t : Token)
  | location (l : Location)
  | diagnostic (d : Diagnostic)
  | name (s : String)
  | config (c : Config)
  /-- a configuration that was only looked at, and whether it is the default -/
  | checked (c : Config) (isDefault : Bool)
  /-- the replies to the steps, and the configuration after them where they had their own -/
  | steps (replies : List (Reply (Except Failure Answer))) (after : Option Config)

end Spintax.Session
