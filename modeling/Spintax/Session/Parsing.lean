import Spintax.Session.Build

/-!
# Spintax.Session.Parsing

Making trees from tokens and from templates. A tree may be stored under a name; when there is none
to store, the name keeps what it had.

* `ParsingCommand`, `ParsingCommand.act`.
-/

namespace Spintax.Session

inductive ParsingCommand where
  | parse (tokens : TokensExpr) (file : Option String) (store : Option String)
  /-- stores a new parser -/
  | start (name : String) (tokens : TokensExpr) (file : Option String)
  /-- goes on with a parser -/
  | resume (name : String) (store : Option String)
  | compile (text : String) (file : Option String) (store : Option String)

open Procedure

def ParsingCommand.act : ParsingCommand → Procedure Answer
  | .parse e file store => do
    let p ← buildParser e file
    keepTree store (← heed p.report.1)
  | .start name e file => do
    putParser name (← buildParser e file)
    return .done
  | .resume name store => do
    let (result, p) := (← find State.parsers name).report
    putParser name p
    keepTree store (← heed result)
  | .compile text file store => do
    keepTree store (← heed (Template.compile (← limit) file text))

end Spintax.Session
