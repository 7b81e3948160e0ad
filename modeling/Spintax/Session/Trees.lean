import Spintax.Session.Build

/-!
# Spintax.Session.Trees

Showing, comparing and changing trees.

* `TreeCommand`, `TreeCommand.act`.
-/

namespace Spintax.Session

inductive TreeCommand where
  /-- shows a tree, described if asked for, and stores it where a name is given -/
  | display (e : TreeExpr) (store : Option String) (described : Bool)
  | compare (a b : TreeExpr)
  /-- counts the different ones -/
  | distinct (es : List TreeExpr)
  | revise (e : TreeExpr) (revision : RevisionExpr)

open Procedure

def TreeCommand.act : TreeCommand → Procedure Answer
  | .display e store described => do
    let t ← build e
    storeTree store t
    return .tree t (if described then some t.describe else none)
  | .compare a b => do
    let a ← build a
    let b ← build b
    return .equal (a.same b)
  | .distinct es => do return .count (← buildDistinct es).length
  | .revise e r => do
    let t ← build e
    let r ← buildRevision r
    match t.revise r with
    | .ok t' => return .revised t t' (t.same t')
    | .error e => throw (.revision e)

end Spintax.Session
