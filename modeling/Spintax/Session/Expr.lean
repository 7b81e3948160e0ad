import Spintax.Token
import Spintax.Tree

/-!
# Spintax.Session.Expr

Descriptions of the things that requests are about, by value or by the name they are stored under.

* `TreeExpr`: trees.
* `ChooserExpr`: choosers.
* `InputExpr`: what text is made from.
* `TokensExpr`: what a parser reads.
* `RevisionExpr`: new values for a tree.
-/

namespace Spintax.Session

inductive TreeExpr where
  | text (content : String) (location : Location)
  | pattern (parts : List TreeExpr) (location : Location)
  | block (options : List TreeExpr) (location : Location)
  | bare (location : Location)
  | value (v : Value)
  /-- `depth` blocks around a core, with text on both sides of each -/
  | nest (depth : Nat) (left right core : String)
  /-- the tree of a template -/
  | source (text : String) (file : Option String)
  | named (name : String)
  /-- a part of a tree, by a path of child numbers -/
  | part (tree : TreeExpr) (path : List Int)

inductive ChooserExpr where
  /-- no chooser -/
  | absent
  | picks (ps : List Int)
  | seed (n : Int)
  | named (name : String)

inductive InputExpr where
  | source (text : String)
  | tree (e : TreeExpr)

inductive TokensExpr where
  | source (text : String) (file : Option String)
  | list (ts : List Token)

/-- New values for some aspects of a tree. -/
structure RevisionExpr where
  content : Option String := none
  parts : Option (List TreeExpr) := none
  options : Option (List TreeExpr) := none
  location : Option Location := none

end Spintax.Session
