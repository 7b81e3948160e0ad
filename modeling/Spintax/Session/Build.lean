import Spintax.Session.Expr
import Spintax.Session.State

/-!
# Spintax.Session.Build

From descriptions to things: trees, inputs, choosers and parsers. Parts are built in the order in
which they are written, and the first failure ends it.

* `Procedure.build`: the tree that an expression describes.
* `Procedure.buildInput`, `Procedure.buildRevision`: what is made of trees.
* `Procedure.buildDistinct`: trees to be counted.
* `Procedure.buildChooser`, `Procedure.orDefault`: choosers, and the one used where none is given.
* `Procedure.buildParser`: parsers, under the current configuration.
-/

namespace Spintax.Session.Procedure

/-- Lifts the outcome of building a tree. -/
def built (r : Except Tree.BuildError Tree) : Procedure Tree :=
  match r with
  | .ok t => pure t
  | .error e => throw (.build e)

mutual

/-- The tree of an expression. Children are built first, from left to right. -/
def build : TreeExpr → Procedure Tree
  | .text content l => pure (.text content l)
  | .pattern parts l => do built (Tree.ofParts (← buildAll parts) l)
  | .block options l => do built (Tree.ofOptions (← buildAll options) l)
  | .bare l => pure (.bare l)
  | .value v => pure (.value v)
  | .nest depth left right core => pure (.nest left right core depth)
  | .source text file => do heed (Template.compile (← limit) file text)
  | .named name => find State.trees name
  | .part e path => do
    match (← build e).descend path with
    | .ok t => pure t
    | .error e => throw (.path e)

def buildAll : List TreeExpr → Procedure (List Tree)
  | [] => pure []
  | e :: es => do
    let t ← build e
    let ts ← buildAll es
    pure (t :: ts)

end

/-- The different ones among some trees. A tree that cannot be counted is refused before the next
one is built. -/
def buildDistinct (es : List TreeExpr) : Procedure (List Tree) := do
  let ts ← es.mapM fun e => do
    let t ← build e
    match t.unhashable? with
    | some typeName => throw (.unhashable typeName)
    | none => pure t
  return Tree.distinct ts

def buildInput : InputExpr → Procedure Generation.Input
  | .source text => pure (.source text)
  | .tree e => do return .tree (← build e)

def buildRevision (r : RevisionExpr) : Procedure Tree.Revision := do
  let parts ← r.parts.mapM buildAll
  let options ← r.options.mapM buildAll
  return { content := r.content, parts := parts, options := options, location := r.location }

/-- The number of the chooser of an expression, if there is one. -/
def buildChooser : ChooserExpr → Procedure (Option Nat)
  | .absent => pure none
  | .picks ps => some <$> addChooser (.scripted ps)
  | .seed n => some <$> addChooser (.seeded (.ofSeed n))
  | .named name => find State.chooserNames name

/-- A chooser, or a new one from the current configuration where there is none. -/
def orDefault : Option Nat → Procedure Nat
  | some chooser => pure chooser
  | none => do
    let s ← get
    addChooser (.ofConfig s.config (s.entropy s.choosers.size))

/-- A parser of the tokens, under the current limit on nesting. -/
def buildParser (tokens : TokensExpr) (file : Option String) : Procedure Parser := do
  let ts ← match tokens with
    | .list ts => pure ts
    | .source text textFile => heed (Template.tokens textFile text)
  return { tokens := ts, file := file, limit := ← limit }

end Spintax.Session.Procedure
