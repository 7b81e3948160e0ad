import Spintax.Session.Answer

/-!
# Spintax.Session.Query

Requests that neither depend on the session nor change it.

* `Query`: what is asked.
* `Query.answer`: the answer.
-/

namespace Spintax.Session

inductive Query where
  | tables
  | escape (text : String)
  | token (t : Token)
  | compareTokens (a b : Token)
  | location (l : Location)
  | span (a b : Location)
  | compareLocations (a b : Location)
  | diagnostic (d : Diagnostic)
  | channel (name : String)
  | config (s : Config.Settings)

/-- The size of the set of two things. -/
def countTwo {α : Type} [DecidableEq α] (a b : α) : Nat :=
  if a = b then 1 else 2

def Query.answer : Query → Except Failure Answer
  | .tables => .ok (.tables Release.tables)
  | .escape text => .ok (.text (Escape.resolveText text))
  | .token t => .ok (.token t)
  | .compareTokens a b => .ok (.compared (a = b) (countTwo a b))
  | .location l => .ok (.location l)
  | .span a b => .ok (.location (a.spanTo b))
  | .compareLocations a b =>
    .ok (.comparedLocations (a = b) (a = Location.unknown) (countTwo a b))
  | .diagnostic d => .ok (.diagnostic d)
  | .channel name => .ok (.name (Event.qualified name))
  | .config s =>
    match Config.ofSettings s with
    | .ok c => .ok (.checked c (c = .initial))
    | .error e => .error (.depth e)

end Spintax.Session
