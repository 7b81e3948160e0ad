import Spintax.Session.Build

/-!
# Spintax.Session.Making

Making text, with a chooser given for the purpose or with a generator, which keeps its chooser.

* `MakingCommand`, `MakingCommand.act`.
-/

namespace Spintax.Session

inductive MakingCommand where
  /-- stores a chooser, or that there is none -/
  | chooser (name : String) (chooser : ChooserExpr)
  /-- evaluates a tree as it is, with no other chooser than the given one -/
  | evaluate (tree : TreeExpr) (chooser : ChooserExpr)
  /-- has a tree make text of itself -/
  | runTree (tree : TreeExpr) (chooser : ChooserExpr)
  /-- makes text from an input -/
  | run (input : InputExpr) (chooser : ChooserExpr) (file : Option String)
  /-- stores a new generator -/
  | start (name : String) (chooser : ChooserExpr) (file : Option String)
  /-- makes text from an input with a generator -/
  | generate (generator : String) (input : InputExpr)
  | generateMany (generator : String) (inputs : List InputExpr)
  | compile (generator text : String) (store : Option String)
  /-- draws from the chooser of a generator -/
  | draw (generator : String) (stop : Int)
  /-- draws from one new chooser for each bound -/
  | draws (stops : List Int)

namespace Procedure

def evaluated (r : Except (Evaluation.Fault Chooser.Refusal) String) : Procedure String :=
  match r with
  | .ok text => pure text
  | .error f => throw (.ofEvaluation f)

/-- The text that evaluation makes of a tree, with a chooser of the session. -/
def evaluateWith (chooser : Nat) (t : Tree) : Procedure String := do
  evaluated (← withChooser chooser (Evaluation.evaluate Heard.draw t))

/-- The text of a tree where there is no chooser. It has one if nothing is to be drawn. -/
def evaluateAlone (t : Tree) : Procedure String :=
  evaluated (Evaluation.evaluate (fun s _ => (.error .noChooser, s)) t ()).1

/-- Puts the events of a run on record and takes its result. -/
def outcome {α : Type} (chooser : Nat)
    (run : Heard → Generation.Outcome Heard Chooser.Refusal α) : Procedure α := do
  let o ← withChooser chooser fun h => let o := run h; (o, o.source)
  hear o.events
  match o.result with
  | .ok a => pure a
  | .error f => throw (.ofGeneration f)

def drawFrom (chooser : Nat) (stop : Int) : Procedure Int := do
  match ← withChooser chooser (Heard.draw · stop) with
  | .ok pick => pure pick
  | .error r => throw (.refused r)

end Procedure

open Procedure

def MakingCommand.act : MakingCommand → Procedure Answer
  | .chooser name e => do
    let c ← buildChooser e
    modify fun s => { s with chooserNames := s.chooserNames.put name c }
    return .done
  | .evaluate e c => do
    let t ← build e
    match ← buildChooser c with
    | some c => return .output (← evaluateWith c t)
    | none => return .output (← evaluateAlone t)
  | .runTree e c => do
    match ← build e with
    | .value v => throw (.notRunnable v.typeName)
    | t => return .output (← evaluateWith (← orDefault (← buildChooser c)) t)
  | .run e c file => do
    let input ← buildInput e
    let c ← orDefault (← buildChooser c)
    return .output (← outcome c (Generation.run Heard.draw (← limit) file input))
  | .start name e file => do
    let c ← orDefault (← buildChooser e)
    modify fun s => { s with generators := s.generators.put name ⟨c, file⟩ }
    return .done
  | .generate name e => do
    let g ← find State.generators name
    let input ← buildInput e
    return .output (← outcome g.chooser (Generation.run Heard.draw (← limit) g.file input))
  | .generateMany name es => do
    let g ← find State.generators name
    let inputs ← es.mapM buildInput
    return .outputs (← outcome g.chooser (Generation.runMany Heard.draw (← limit) g.file inputs))
  | .compile name text store => do
    let g ← find State.generators name
    keepTree store (← heed (Template.compile (← limit) g.file text))
  | .draw name stop => do
    let g ← find State.generators name
    return .draw (← drawFrom g.chooser stop)
  | .draws stops => do
    let c ← orDefault none
    return .draws (← stops.mapM (drawFrom c))

end Spintax.Session
