import Spintax.Location
import Spintax.Value

/-!
# Spintax.Tree

What a template means before any choice is made: text, patterns whose parts are put one after the
other, and blocks of options of which one is used. A pattern has at least one part and a block at
least one option, by their shape.

Trees made by hand may also hold nodes of no kind and plain values. They can be built, compared
and shown, and are refused when text is made from them.

* `Tree`, `Tree.ofParts`, `Tree.ofOptions`: trees, and building them from lists.
* `Tree.patternOf`: the pattern of parts read in order, newest first.
* `Tree.same`: equality of everything but the places.
* `Tree.distinct`, `Tree.unhashable?`: counting trees, and what cannot be counted.
* `Tree.describe`: the form shown to readers.
-/

namespace Spintax

inductive Tree where
  | text (content : String) (location : Location)
  | pattern (first : Tree) (rest : List Tree) (location : Location)
  | block (first : Tree) (rest : List Tree) (location : Location)
  /-- a node of no kind -/
  | bare (location : Location)
  /-- no node at all -/
  | value (v : Value)

namespace Tree

/-- Induction over a tree, with the statement for every part of a pattern and every option. -/
@[induction_eliminator]
theorem induct {P : Tree → Prop} (text : ∀ content l, P (.text content l))
    (pattern : ∀ first rest l, P first → (∀ t ∈ rest, P t) → P (.pattern first rest l))
    (block : ∀ first rest l, P first → (∀ t ∈ rest, P t) → P (.block first rest l))
    (bare : ∀ l, P (.bare l)) (value : ∀ v, P (.value v)) (t : Tree) : P t :=
  @Tree.rec P (fun ts => ∀ t ∈ ts, P t)
    text pattern block bare value (by simp) (by simp +contextual) t

def children : Tree → List Tree
  | .pattern first rest _ | .block first rest _ => first :: rest
  | _ => []

def typeName : Tree → String
  | .text _ _ => "Text"
  | .pattern _ _ _ => "Pattern"
  | .block _ _ _ => "Block"
  | .bare _ => "Node"
  | .value v => v.typeName

def location : Tree → Location
  | .text _ l | .pattern _ _ l | .block _ _ l | .bare l => l
  | .value _ => .unknown

/-- Why a list of trees has no tree made of it. -/
inductive BuildError where
  | emptyPattern
  | emptyBlock
deriving DecidableEq

def BuildError.message : BuildError → String
  | .emptyPattern => "Pattern requires at least one subpattern"
  | .emptyBlock => "Block requires at least one option"

def ofParts (parts : List Tree) (l : Location) : Except BuildError Tree :=
  match parts with
  | [] => .error .emptyPattern
  | first :: rest => .ok (.pattern first rest l)

def ofOptions (options : List Tree) (l : Location) : Except BuildError Tree :=
  match options with
  | [] => .error .emptyBlock
  | first :: rest => .ok (.block first rest l)

/-- The first and the other elements of the list whose reverse is `newest :: older`, with `after`
behind them. -/
def unroll {α : Type} (newest : α) : (older : List α) → (after : List α) → α × List α
  | [], after => (newest, after)
  | x :: xs, after => unroll x xs (newest :: after)

theorem unroll_eq {α : Type} (newest : α) (older after : List α) :
    (unroll newest older after).1 :: (unroll newest older after).2 =
      (newest :: older).reverse ++ after := by
  induction older generalizing newest after with
  | nil => rfl
  | cons x xs ih => simp [unroll, ih]

/-- The pattern of some parts, newest first. It reaches from its first part to its last. -/
def patternOf (newest : Tree) (older : List Tree) : Tree :=
  let (first, rest) := unroll newest older []
  .pattern first rest (first.location.spanTo newest.location)

/-- The block of some options, newest first. -/
def blockOf (newest : Tree) (older : List Tree) (l : Location) : Tree :=
  let (first, rest) := unroll newest older []
  .block first rest l

theorem patternOf_eq {newest first : Tree} {older rest : List Tree}
    (h : (newest :: older).reverse = first :: rest) :
    patternOf newest older = .pattern first rest (first.location.spanTo newest.location) := by
  have hu := unroll_eq newest older []
  rw [List.append_nil, h] at hu
  obtain ⟨h₁, h₂⟩ := List.cons.inj hu
  simp [patternOf, h₁, h₂]

theorem blockOf_eq {newest first : Tree} {older rest : List Tree}
    (h : (newest :: older).reverse = first :: rest) (l : Location) :
    blockOf newest older l = .block first rest l := by
  have hu := unroll_eq newest older []
  rw [List.append_nil, h] at hu
  obtain ⟨h₁, h₂⟩ := List.cons.inj hu
  simp [blockOf, h₁, h₂]

@[simp] theorem children_patternOf (newest : Tree) (older : List Tree) :
    (patternOf newest older).children = (newest :: older).reverse := by
  simpa [patternOf, children] using unroll_eq newest older []

@[simp] theorem children_blockOf (newest : Tree) (older : List Tree) (l : Location) :
    (blockOf newest older l).children = (newest :: older).reverse := by
  simpa [blockOf, children] using unroll_eq newest older []

mutual

def size : Tree → Nat
  | .pattern first rest _ | .block first rest _ => first.size + sizeAll rest + 1
  | _ => 1

def sizeAll : List Tree → Nat
  | [] => 0
  | t :: ts => t.size + sizeAll ts

end

theorem sizeAll_append (ts us : List Tree) : sizeAll (ts ++ us) = sizeAll ts + sizeAll us := by
  induction ts with
  | nil => simp [sizeAll]
  | cons t ts ih => simp [sizeAll, ih]; omega

theorem size_le_sizeAll {t : Tree} {ts : List Tree} (h : t ∈ ts) : t.size ≤ sizeAll ts := by
  induction ts with
  | nil => simp at h
  | cons u us ih =>
    rcases List.mem_cons.1 h with rfl | h
    · simp [sizeAll]
    · have := ih h
      simp [sizeAll]
      omega

mutual

/-- Equality of kind, content and children, wherever the two trees stand. -/
def same : Tree → Tree → Bool
  | .text a _, .text b _ => a == b
  | .pattern x xs _, .pattern y ys _ => same x y && sameAll xs ys
  | .block x xs _, .block y ys _ => same x y && sameAll xs ys
  | .bare _, .bare _ => true
  | .value a, .value b => a.same b
  | _, _ => false

def sameAll : List Tree → List Tree → Bool
  | [], [] => true
  | x :: xs, y :: ys => same x y && sameAll xs ys
  | _, _ => false

end

/-- One tree of each class of equal ones. -/
def distinct (ts : List Tree) : List Tree :=
  ts.foldl (fun seen t => if seen.any t.same then seen else t :: seen) []

mutual

/-- The type of the first value in a tree that has no hash. Trees are told apart by their hashes
first, so such a tree cannot be counted. -/
def unhashable? : Tree → Option String
  | .pattern first rest _ | .block first rest _ => first.unhashable?.or (unhashableAmong? rest)
  | .value v => v.unhashable?
  | .text _ _ | .bare _ => none

def unhashableAmong? : List Tree → Option String
  | [] => none
  | t :: ts => t.unhashable?.or (unhashableAmong? ts)

end

/-- `depth` blocks around a core, with text to the left and the right of each. -/
def nest (left right core : String) : (depth : Nat) → Tree
  | 0 => .pattern (.text core .unknown) [] .unknown
  | depth + 1 =>
    .pattern (.text left .unknown)
      [.block (nest left right core depth) [] .unknown, .text right .unknown] .unknown

/-- Written elements between brackets. A lone element is followed by a comma. -/
def describeTuple : List String → String
  | [x] => "(" ++ x ++ ",)"
  | xs => "(" ++ ", ".intercalate xs ++ ")"

mutual

/-- Kind, content and children. The places are left out. -/
def describe : Tree → String
  | .text content _ => "Text(content=" ++ Text.quote content ++ ")"
  | .pattern first rest _ =>
    "Pattern(subpatterns=" ++ describeTuple (first.describe :: describeAll rest) ++ ")"
  | .block first rest _ =>
    "Block(options=" ++ describeTuple (first.describe :: describeAll rest) ++ ")"
  | .bare _ => "Node()"
  | .value v => v.describe

def describeAll : List Tree → List String
  | [] => []
  | t :: ts => t.describe :: describeAll ts

end

end Tree
end Spintax
