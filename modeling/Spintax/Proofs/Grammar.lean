import Spintax.Parser

/-!
# Spintax.Proofs.Grammar

The grammar of templates over kinds of tokens, and the trees that are its derivations:

    pattern := part+
    part    := text | block
    block   := opening pattern (bar pattern)* closing

* `Grammar.Pattern n w`: the word `w` is a pattern with at most `n` blocks open at once.
* `Tree.IsPattern n`, `Tree.IsPart n`: the trees of the shape that the grammar gives them.
* `Tree.symbols`: the symbols a tree is written with, from left to right.
* `pattern_iff_tree`: the words of the grammar are what such trees are written with.
-/

namespace Spintax

/-- A token as the grammar sees it. Only text keeps its value. -/
inductive Symbol where
  | opening
  | closing
  | bar
  | text (content : String)
deriving DecidableEq

def Symbol.kind : Symbol → Token.Kind
  | .opening => .opening
  | .closing => .closing
  | .bar => .bar
  | .text _ => .text

def Token.symbol (t : Token) : Symbol :=
  match t.kind with
  | .opening => .opening
  | .closing => .closing
  | .bar => .bar
  | .text => .text t.value

@[simp] theorem Token.kind_symbol (t : Token) : t.symbol.kind = t.kind := by
  cases h : t.kind <;> simp [Token.symbol, Symbol.kind, h]

/-! ## Words -/

namespace Grammar

mutual

/-- A pattern, with at most so many blocks open at once. -/
inductive Pattern : Nat → List Token.Kind → Prop where
  | last {n : Nat} {w : List Token.Kind} : Part n w → Pattern n w
  | cons {n : Nat} {u w : List Token.Kind} : Part n u → Pattern n w → Pattern n (u ++ w)

inductive Part : Nat → List Token.Kind → Prop where
  | text {n : Nat} : Part n [.text]
  | block {n : Nat} {w : List Token.Kind} :
      Options n w → Part (n + 1) (.opening :: (w ++ [.closing]))

/-- The inside of a block. -/
inductive Options : Nat → List Token.Kind → Prop where
  | last {n : Nat} {w : List Token.Kind} : Pattern n w → Options n w
  | cons {n : Nat} {u w : List Token.Kind} :
      Pattern n u → Options n w → Options n (u ++ .bar :: w)

end

end Grammar

/-! ## Trees -/

namespace Tree

mutual

/-- What a tree is written with. Neither a bare node nor a value can be written. -/
def symbols : Tree → List Symbol
  | .text content _ => [.text content]
  | .pattern first rest _ => first.symbols ++ symbolsAll rest
  | .block first rest _ => .opening :: (first.symbols ++ symbolsBarred rest ++ [.closing])
  | .bare _ | .value _ => []

def symbolsAll : List Tree → List Symbol
  | [] => []
  | t :: ts => t.symbols ++ symbolsAll ts

/-- The same with a bar before each tree. -/
def symbolsBarred : List Tree → List Symbol
  | [] => []
  | t :: ts => .bar :: (t.symbols ++ symbolsBarred ts)

end

mutual

/-- A pattern of texts and blocks, with at most so many blocks open at once. -/
def IsPattern : Nat → Tree → Prop
  | n, .pattern first rest _ => first.IsPart n ∧ AreParts n rest
  | _, _ => False

/-- A text, or a block of patterns. -/
def IsPart : Nat → Tree → Prop
  | _, .text _ _ => True
  | n + 1, .block first rest _ => first.IsPattern n ∧ ArePatterns n rest
  | _, _ => False

def AreParts : Nat → List Tree → Prop
  | _, [] => True
  | n, t :: ts => t.IsPart n ∧ AreParts n ts

def ArePatterns : Nat → List Tree → Prop
  | _, [] => True
  | n, t :: ts => t.IsPattern n ∧ ArePatterns n ts

end

theorem symbolsAll_eq (ts : List Tree) : symbolsAll ts = ts.flatMap symbols := by
  induction ts with
  | nil => rfl
  | cons t ts ih => simp [symbolsAll, ih]

theorem areParts_iff {n : Nat} {ts : List Tree} : AreParts n ts ↔ ∀ t ∈ ts, t.IsPart n := by
  induction ts with
  | nil => simp [AreParts]
  | cons t ts ih => simp [AreParts, ih]

theorem arePatterns_iff {n : Nat} {ts : List Tree} :
    ArePatterns n ts ↔ ∀ t ∈ ts, t.IsPattern n := by
  induction ts with
  | nil => simp [ArePatterns]
  | cons t ts ih => simp [ArePatterns, ih]

/-- Induction on a tree of the shape of the grammar: `P` of patterns and `Q` of parts at once. -/
theorem shape_induct {P Q : Nat → Tree → Prop}
    (text : ∀ n content l, Q n (.text content l))
    (pattern : ∀ n first rest l, (∀ u ∈ first :: rest, Q n u) → P n (.pattern first rest l))
    (block : ∀ n first rest l, P n first → (∀ u ∈ rest, P n u) →
      Q (n + 1) (.block first rest l)) (t : Tree) :
    (∀ n, t.IsPattern n → P n t) ∧ ∀ n, t.IsPart n → Q n t := by
  induction t with
  | text content l => exact ⟨fun n h => by simp [IsPattern] at h, fun n _ => text n content l⟩
  | pattern first rest l hf hr =>
    refine ⟨fun n h => pattern n first rest l fun u hu => ?_,
      fun n h => by cases n <;> simp [IsPart] at h⟩
    rcases List.mem_cons.1 hu with rfl | hu
    · exact hf.2 n h.1
    · exact (hr u hu).2 n (areParts_iff.1 h.2 u hu)
  | block first rest l hf hr =>
    refine ⟨fun n h => by simp [IsPattern] at h, fun n h => ?_⟩
    cases n with
    | zero => simp [IsPart] at h
    | succ n =>
      exact block n first rest l (hf.1 n h.1)
        fun u hu => (hr u hu).1 n (arePatterns_iff.1 h.2 u hu)
  | bare l =>
    exact ⟨fun n h => by simp [IsPattern] at h, fun n h => by cases n <;> simp [IsPart] at h⟩
  | value v =>
    exact ⟨fun n h => by simp [IsPattern] at h, fun n h => by cases n <;> simp [IsPart] at h⟩

/-! ## Trees as derivations -/

theorem pattern_of_parts {n : Nat} {first : Tree} {rest : List Tree}
    (hf : Grammar.Part n (first.symbols.map Symbol.kind))
    (hr : ∀ t ∈ rest, Grammar.Part n (t.symbols.map Symbol.kind)) :
    Grammar.Pattern n ((first.symbols ++ symbolsAll rest).map Symbol.kind) := by
  induction rest generalizing first with
  | nil => simpa [symbolsAll] using Grammar.Pattern.last hf
  | cons t ts ih =>
    have h := ih (hr t (by simp)) fun u hu => hr u (by simp [hu])
    simpa [symbolsAll] using Grammar.Pattern.cons hf h

theorem options_of_patterns {n : Nat} {first : Tree} {rest : List Tree}
    (hf : Grammar.Pattern n (first.symbols.map Symbol.kind))
    (hr : ∀ t ∈ rest, Grammar.Pattern n (t.symbols.map Symbol.kind)) :
    Grammar.Options n ((first.symbols ++ symbolsBarred rest).map Symbol.kind) := by
  induction rest generalizing first with
  | nil => simpa [symbolsBarred] using Grammar.Options.last hf
  | cons t ts ih =>
    have h := ih (hr t (by simp)) fun u hu => hr u (by simp [hu])
    simpa [symbolsBarred, Symbol.kind] using Grammar.Options.cons hf h

/-- Both statements at once: the parts of a pattern are parts, and the options of a block are
patterns. -/
theorem derives (t : Tree) :
    (∀ n, t.IsPattern n → Grammar.Pattern n (t.symbols.map Symbol.kind)) ∧
      ∀ n, t.IsPart n → Grammar.Part n (t.symbols.map Symbol.kind) := by
  refine shape_induct (P := fun n t => Grammar.Pattern n (t.symbols.map Symbol.kind))
    (Q := fun n t => Grammar.Part n (t.symbols.map Symbol.kind)) ?_ ?_ ?_ t
  · intro n content l
    exact .text
  · intro n first rest l h
    exact pattern_of_parts (h first (by simp)) fun u hu => h u (by simp [hu])
  · intro n first rest l hf hr
    have ho := options_of_patterns hf hr
    simpa [symbols, Symbol.kind] using Grammar.Part.block ho

end Tree

namespace Grammar

open Spintax.Tree

mutual

theorem Pattern.exists_trees {n : Nat} {w : List Token.Kind} :
    Pattern n w → ∀ xs : List Symbol, xs.map Symbol.kind = w →
      ∃ (first : Tree) (rest : List Tree), first.IsPart n ∧ AreParts n rest ∧
        first.symbols ++ symbolsAll rest = xs
  | .last h, xs, hx => by
    obtain ⟨t, ht, hs⟩ := h.exists_tree xs hx
    exact ⟨t, [], ht, trivial, by simpa [symbolsAll] using hs⟩
  | .cons h h', xs, hx => by
    obtain ⟨ys, zs, rfl, hy, hz⟩ := List.map_eq_append_iff.1 hx
    obtain ⟨t, ht, rfl⟩ := h.exists_tree ys hy
    obtain ⟨first, rest, h₁, h₂, rfl⟩ := h'.exists_trees zs hz
    exact ⟨t, first :: rest, ht, ⟨h₁, h₂⟩, rfl⟩

theorem Part.exists_tree {n : Nat} {w : List Token.Kind} :
    Part n w → ∀ xs : List Symbol, xs.map Symbol.kind = w →
      ∃ t : Tree, t.IsPart n ∧ t.symbols = xs
  | .text, xs, hx => by
    obtain ⟨x, rfl⟩ := List.length_eq_one_iff.1 (by simpa using congrArg List.length hx)
    cases x with
    | text content => exact ⟨.text content .unknown, by simp [IsPart], rfl⟩
    | opening => simp [Symbol.kind] at hx
    | closing => simp [Symbol.kind] at hx
    | bar => simp [Symbol.kind] at hx
  | .block h, xs, hx => by
    obtain ⟨x, ys, rfl, hk, hx⟩ := List.map_eq_cons_iff.1 hx
    obtain ⟨zs, us, rfl, hz, hu⟩ := List.map_eq_append_iff.1 hx
    obtain ⟨first, rest, h₁, h₂, rfl⟩ := h.exists_trees zs hz
    obtain ⟨y, rfl⟩ := List.length_eq_one_iff.1 (by simpa using congrArg List.length hu)
    cases x <;> cases y <;> simp [Symbol.kind] at hk hu
    exact ⟨.block first rest .unknown, ⟨h₁, h₂⟩, by simp [symbols]⟩

theorem Options.exists_trees {n : Nat} {w : List Token.Kind} :
    Options n w → ∀ xs : List Symbol, xs.map Symbol.kind = w →
      ∃ (first : Tree) (rest : List Tree), first.IsPattern n ∧ ArePatterns n rest ∧
        first.symbols ++ symbolsBarred rest = xs
  | .last h, xs, hx => by
    obtain ⟨first, rest, h₁, h₂, hs⟩ := h.exists_trees xs hx
    exact ⟨.pattern first rest .unknown, [], ⟨h₁, h₂⟩, trivial,
      by simpa [symbolsBarred, symbols] using hs⟩
  | .cons h h', xs, hx => by
    obtain ⟨ys, zs, rfl, hy, hz⟩ := List.map_eq_append_iff.1 hx
    obtain ⟨x, us, rfl, hk, hu⟩ := List.map_eq_cons_iff.1 hz
    obtain ⟨first, rest, h₁, h₂, rfl⟩ := h.exists_trees ys hy
    obtain ⟨second, more, h₃, h₄, rfl⟩ := h'.exists_trees us hu
    cases x <;> simp [Symbol.kind] at hk
    exact ⟨.pattern first rest .unknown, second :: more, ⟨h₁, h₂⟩, ⟨h₃, h₄⟩,
      by simp [symbolsBarred, symbols]⟩

end

/-- The words of the grammar are what the trees of its shape are written with. -/
theorem pattern_iff_tree {n : Nat} {xs : List Symbol} :
    Pattern n (xs.map Symbol.kind) ↔ ∃ t : Tree, t.IsPattern n ∧ t.symbols = xs := by
  constructor
  · intro h
    obtain ⟨first, rest, h₁, h₂, hs⟩ := h.exists_trees xs rfl
    exact ⟨.pattern first rest .unknown, ⟨h₁, h₂⟩, hs⟩
  · rintro ⟨t, ht, rfl⟩
    exact t.derives.1 n ht

end Grammar
end Spintax
