import Spintax.Session.Making
import Spintax.Session.Parsing
import Spintax.Session.Query
import Spintax.Session.Reading
import Spintax.Session.Settings
import Spintax.Session.Trees

/-!
# Spintax.Session.Run

Whole sessions. Requests are made one after the other; some hold further requests, which are their
steps.

* `Request`: all that can be asked for.
* `Request.act`: what a request does, and its answer.
* `Request.replies`: the replies to requests made one after the other.
* `answer`: the reply to a request in a session of its own.
-/

namespace Spintax.Session

inductive Request where
  | query (q : Query)
  | reading (c : ReadingCommand)
  | parsing (c : ParsingCommand)
  | making (c : MakingCommand)
  | trees (c : TreeCommand)
  | settings (c : ConfigCommand)
  /-- takes the steps under a configuration of their own, and leaves them in the usual way or by an
  exception that is caught outside -/
  | within (s : Config.Settings) (steps : List Request) (raises : Bool)
  /-- takes the steps in a thread of their own, which starts with the default configuration -/
  | thread (steps : List Request)
  | session (steps : List Request)

open Procedure

mutual

/-- What a request does, and its answer. An exception that ends steps with a configuration of their
own carries the replies to them. -/
def Request.act : Request → Procedure Answer
  | .query q => MonadExcept.ofExcept q.answer
  | .reading c => c.act
  | .parsing c => c.act
  | .making c => c.act
  | .trees c => c.act
  | .settings c => c.act
  | .within s steps raises => do
    let c ← checkConfig s
    let replies ← caught (under c do
      let replies ← Request.replies steps
      if raises then throw replies else pure replies)
    return .steps replies (← get).config
  | .thread steps => do
    let replies ← under .initial (Request.replies steps)
    return .steps replies (← get).config
  | .session steps => do return .steps (← Request.replies steps) none
termination_by structural r => r

/-- The replies to some requests, one after the other. A failure is a reply like any other. -/
def Request.replies : List Request → StateM State (List (Reply (Except Failure Answer)))
  | [] => pure []
  | r :: rs => do
    let one ← reply r.act
    let more ← Request.replies rs
    pure (one :: more)
termination_by structural rs => rs

end

/-- The reply to a request in a new session. Where nothing is known of what the operating system
seeds, every chooser has the generator of its number. -/
def answer (r : Request) (entropy : Nat → Twister := fun n => .ofSeed n) :
    Reply (Except Failure Answer) :=
  ((reply r.act).run (.initial entropy)).1

end Spintax.Session
