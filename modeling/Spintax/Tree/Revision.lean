import Spintax.Pick
import Spintax.Tree

/-!
# Spintax.Tree.Revision

Parts of a tree, and trees that differ from another in some respects.

* `Tree.descend`: the tree at the end of a path of child numbers.
* `Tree.Revision`, `Tree.revise`: a tree with some of its content, children and place replaced.
-/

namespace Spintax.Tree

/-- Why nothing is at the end of a path. -/
inductive PathError where
  /-- a child of something that has none -/
  | childless (typeName : String)
  | outOfRange (i : Int)
deriving DecidableEq

def PathError.message : PathError → String
  | .childless typeName => Text.quote typeName ++ " object has no attribute 'subpatterns'"
  | .outOfRange i => missMessage i

/-- The tree at a path, each number picking a child from either end. -/
def descend (t : Tree) : List Int → Except PathError Tree
  | [] => .ok t
  | i :: path =>
    if t.children.isEmpty then .error (.childless t.typeName)
    else
      match pick? t.children i with
      | some child => child.descend path
      | none => .error (.outOfRange i)

/-- New values for some aspects of a tree. -/
structure Revision where
  content : Option String := none
  parts : Option (List Tree) := none
  options : Option (List Tree) := none
  location : Option Location := none

/-- Why a tree is not revised. -/
inductive RevisionError where
  | build (e : BuildError)
  /-- a new value for what the tree does not have -/
  | unknownAspect (typeName aspect : String)
  | notTree
deriving DecidableEq

def RevisionError.message : RevisionError → String
  | .build e => e.message
  | .unknownAspect typeName aspect =>
    typeName ++ ".__init__() got an unexpected keyword argument " ++ Text.quote aspect
  | .notTree => "replace() should be called on dataclass instances"

/-- The aspects that new values are given for. The place is left out, as every tree has one. -/
def Revision.aspects (r : Revision) : List String :=
  [("content", r.content.isSome), ("subpatterns", r.parts.isSome), ("options", r.options.isSome)]
    |>.filter (·.2) |>.map (·.1)

/-- The tree with the new values, which must be for what the tree has. Children must not become
empty. -/
def revise (t : Tree) (r : Revision) : Except RevisionError Tree :=
  let l := r.location.getD t.location
  let only (aspects : List String) (revised : Except RevisionError Tree) :=
    match r.aspects.find? (· ∉ aspects) with
    | some aspect => .error (.unknownAspect t.typeName aspect)
    | none => revised
  match t with
  | .text content _ => only ["content"] (.ok (.text (r.content.getD content) l))
  | .pattern first rest _ =>
    only ["subpatterns"] ((ofParts (r.parts.getD (first :: rest)) l).mapError .build)
  | .block first rest _ =>
    only ["options"] ((ofOptions (r.options.getD (first :: rest)) l).mapError .build)
  | .bare _ => only [] (.ok (.bare l))
  | .value _ => .error .notTree

end Spintax.Tree
