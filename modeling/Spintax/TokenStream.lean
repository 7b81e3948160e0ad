import Spintax.Scanner

/-!
# Spintax.TokenStream

A scanner read on demand. A stream that has come to the end stays there; one that is started anew
reads on from the same point, and meets the end again.

* `TokenStream.next`: one token.
* `TokenStream.rest`: all tokens that are left.
* `TokenStream.restart`: the stream on the same scanner, not finished.
-/

namespace Spintax

structure TokenStream where
  scanner : Scanner
  finished : Bool := false
deriving DecidableEq

namespace TokenStream

/-- What a stream gives: a token, the way the text ends, or nothing once it has ended. -/
inductive Delivery where
  | token (t : Token)
  | ended (ending : Ending)
  | nothing
deriving DecidableEq

/-- What the journal hears of a delivery. -/
def Delivery.events : Delivery → List Event
  | .ended ending => ending.events
  | _ => []

/-- What a reader gets: a token, nothing at the end, or the report of a dangling escape. -/
def Delivery.found (file : Option String) : Delivery → Except Diagnostic (Option Token)
  | .token t => .ok (some t)
  | .nothing => .ok none
  | .ended ending =>
    match ending.diagnostic? file with
    | some d => .error d
    | none => .ok none

def ofText (text : String) (file : Option String) : TokenStream :=
  { scanner := .ofText text file }

def next (s : TokenStream) : Delivery × TokenStream :=
  if s.finished then (.nothing, s)
  else
    match s.scanner.next with
    | .token t after => (.token t, { scanner := after })
    | .ended ending after => (.ended ending, { scanner := after, finished := true })

/-- The tokens that are left, the way the text ends unless that was met before, and the finished
stream. -/
def rest (s : TokenStream) : List Token × Option Ending × TokenStream :=
  if s.finished then ([], none, s)
  else
    let scan := s.scanner.scan
    (scan.tokens, some scan.ending, { scanner := scan.last, finished := true })

def restart (s : TokenStream) : TokenStream :=
  { s with finished := false }

theorem next_of_finished {s : TokenStream} (h : s.finished) : s.next = (.nothing, s) := by
  simp [next, h]

theorem rest_of_finished {s : TokenStream} (h : s.finished) : s.rest = ([], none, s) := by
  simp [rest, h]

/-- All that a stream gives until it ends, each with the stream after it. -/
def trace (s : TokenStream) : List (Delivery × TokenStream) :=
  if s.finished then []
  else
    match _h : s.scanner.next with
    | .token t after => (.token t, { scanner := after }) :: trace { scanner := after }
    | .ended ending after => [(.ended ending, { scanner := after, finished := true })]
termination_by s.scanner.rest.length
decreasing_by exact Scanner.next_rest_lt _h

end TokenStream
end Spintax
