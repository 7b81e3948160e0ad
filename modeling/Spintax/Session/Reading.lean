import Spintax.Session.State

/-!
# Spintax.Session.Reading

Reading the tokens of a template, all at once or from a stream kept under a name.

* `ReadingCommand`, `ReadingCommand.act`.
-/

namespace Spintax.Session

inductive ReadingCommand where
  /-- all tokens of a template -/
  | tokens (text : String) (file : Option String)
  /-- all tokens one by one, with the state of the scanner after each -/
  | trace (text : String) (file : Option String)
  /-- stores a new stream -/
  | start (name text : String) (file : Option String)
  | next (name : String)
  | rest (name : String)
  | restart (name : String)

open Procedure

def ReadingCommand.act : ReadingCommand → Procedure Answer
  | .tokens text file => do return .tokens (← heed (Template.tokens file text))
  | .trace text file => do
    let steps := (TokenStream.ofText text file).trace
    hear (steps.flatMap fun s => s.1.events)
    return .trace (steps.map fun s => .of s.2 (s.1.found file))
  | .start name text file => do
    let stream := TokenStream.ofText text file
    putStream name stream
    return .stream (.of stream ())
  | .next name => do
    let (delivery, stream) := (← find State.streams name).next
    putStream name stream
    hear delivery.events
    return .delivered (.of stream (delivery.found stream.scanner.file))
  | .rest name => do
    let (ts, ending, stream) := (← find State.streams name).rest
    putStream name stream
    hear (ending.elim [] Ending.events)
    let found := match ending.bind (Ending.diagnostic? stream.scanner.file) with
      | some d => .error d
      | none => .ok ts
    return .drained (.of stream found)
  | .restart name => do
    let stream := (← find State.streams name).restart
    putStream name stream
    return .stream (.of stream ())

end Spintax.Session
