import Spintax.Parser
import Spintax.Session.Answer
import Spintax.Session.Names

/-!
# Spintax.Session.State

What a session remembers from one request to the next, and the elementary actions on it.

* `State`: the configuration in force, what is stored under names, what the next reply reports, and
  what the operating system seeds.
* `State.initial`: the state before the first request.
* `Procedure`: an action that may fail. What it changed before it failed stays changed.
* `reply`: takes an action and collects what the reply reports.
-/

namespace Spintax.Session

/-- A chooser and a file name that runs are made with. -/
structure Generator where
  /-- the number of the chooser in the session -/
  chooser : Nat
  file : Option String

/-- The state of a session. Choosers are numbered, so that names and generators can share one. -/
structure State where
  /-- the generators that the operating system seeds: a chooser without a seed takes the one with
  its number -/
  entropy : Nat → Twister
  config : Config := .initial
  choosers : Array Chooser := #[]
  streams : Names TokenStream := {}
  parsers : Names Parser := {}
  trees : Names Tree := {}
  /-- a name may also stand for no chooser -/
  chooserNames : Names (Option Nat) := {}
  generators : Names Generator := {}
  /-- the bounds asked of scripted choosers since the last reply, newest first -/
  asked : List Int := []
  /-- the records made since the last reply, in order -/
  events : List Event := []

/-- The state before the first request. -/
def State.initial (entropy : Nat → Twister) : State :=
  { entropy := entropy }

abbrev Procedure (α : Type) : Type := ExceptT Failure (StateM State) α

/-- A chooser and the bounds asked of it so far, newest first. -/
abbrev Heard : Type := Chooser × List Int

/-- Draws, and takes down the bound where the chooser is scripted. -/
def Heard.draw : Source Heard Chooser.Refusal := fun (c, asked) stop =>
  let (pick, c') := c.draw stop
  (pick, c', if c.isScripted then stop :: asked else asked)

namespace Procedure

def find {α : Type} (table : State → Names α) (name : String) : Procedure α := do
  match (table (← get)).get? name with
  | some a => pure a
  | none => throw (.noSuchName name)

def hear (events : List Event) : Procedure Unit :=
  modify fun s => { s with events := s.events ++ events }

/-- A value with its events, which are put on record also where the value is a fault. -/
def heed {α : Type} (r : Recorded (Except Diagnostic α)) : Procedure α := do
  hear r.events
  match r.value with
  | .ok a => pure a
  | .error d => throw (.diagnostic d)

def storeTree (name : Option String) (t : Tree) : Procedure Unit :=
  match name with
  | some n => modify fun s => { s with trees := s.trees.put n t }
  | none => pure ()

/-- Stores a tree, where a name for it is given, and shows it. -/
def keepTree (name : Option String) (t : Tree) : Procedure Answer := do
  storeTree name t
  return .tree t none

def addChooser (c : Chooser) : Procedure Nat :=
  modifyGet fun s => (s.choosers.size, { s with choosers := s.choosers.push c })

def withChooser {α : Type} (chooser : Nat) (use : Heard → α × Heard) : Procedure α :=
  modifyGet fun s =>
    let c := s.choosers.getD chooser (.scripted [])
    let (a, c, asked) := use (c, s.asked)
    (a, { s with choosers := s.choosers.setIfInBounds chooser c, asked := asked })

def limit : Procedure Nat := do
  return (← get).config.maxDepth

def putConfig {ε : Type} (c : Config) : ExceptT ε (StateM State) Unit :=
  modify fun s => { s with config := c }

/-- Does something under another configuration. However that ends, the one before is in force
again. -/
def under {ε α : Type} (c : Config) (body : ExceptT ε (StateM State) α) :
    ExceptT ε (StateM State) α := do
  let before := (← get).config
  putConfig c
  try body finally putConfig before

/-- Does something that may end by an exception, and goes on with what it came to. -/
def caught {α : Type} (body : ExceptT α (StateM State) α) : Procedure α := do
  match ← (body.run : StateM State (Except α α)) with
  | .ok a => pure a
  | .error a => pure a

def putStream (name : String) (stream : TokenStream) : Procedure Unit :=
  modify fun s => { s with streams := s.streams.put name stream }

def putParser (name : String) (p : Parser) : Procedure Unit :=
  modify fun s => { s with parsers := s.parsers.put name p }

def checkConfig (c : Config.Settings) : Procedure Config :=
  match Config.ofSettings c with
  | .ok c => pure c
  | .error e => throw (.depth e)

end Procedure

/-- Does something, and takes what has been asked and recorded since the last reply into this
one. -/
def reply {α : Type} (act : Procedure α) : StateM State (Reply (Except Failure α)) := do
  let result ← act.run
  modifyGet fun s =>
    (⟨result, s.asked.reverse, s.events⟩, { s with asked := [], events := [] })

end Spintax.Session
