import Spintax.Proofs.Meanings
import Spintax.Proofs.Spelling

/-!
# Spintax.Proofs.Joining

Texts next to each other, joined to one text. Trees that are the same once their texts are joined
mean the same, and whether they are is seen from their symbols.

* `Symbol.joinAll`: a list of symbols with its texts joined.
* `Tree.joined`: a tree with the texts of every pattern joined.
* `symbols_joined`: the symbols of a joined tree are the joined symbols.
* `same_joined`, `denote_eq_of_joinAll`: trees with the same joined symbols.
-/

namespace Spintax

/-! ## Symbols -/

namespace Symbol

def join : Symbol → List Symbol → List Symbol
  | .text a, .text b :: w => .text (a ++ b) :: w
  | x, w => x :: w

def joinAll (w : List Symbol) : List Symbol :=
  w.foldr join []

@[simp] theorem joinAll_cons (x : Symbol) (w : List Symbol) :
    joinAll (x :: w) = join x (joinAll w) := rfl

theorem join_join (a b : String) (w : List Symbol) :
    join (.text a) (join (.text b) w) = join (.text (a ++ b)) w := by
  cases w with
  | nil => rfl
  | cons x w =>
    cases x with
    | text c => simp only [join, String.append_assoc]
    | _ => rfl

theorem join_ne_nil (x : Symbol) (w : List Symbol) : join x w ≠ [] := by
  unfold join
  split <;> simp

theorem join_of_kind {x : Symbol} (hx : x.kind ≠ .text) (w : List Symbol) : join x w = x :: w := by
  cases x with
  | text a => exact absurd rfl hx
  | _ => rfl

/-- No text is joined to one behind a brace or a bar. -/
theorem joinAll_append_cons {x : Symbol} (hx : x.kind ≠ .text) (u w : List Symbol) :
    joinAll (u ++ x :: w) = joinAll u ++ x :: joinAll w := by
  induction u with
  | nil => exact join_of_kind hx _
  | cons y u ih =>
    rw [List.cons_append, joinAll_cons, joinAll_cons, ih]
    cases y with
    | text a =>
      cases hu : joinAll u with
      | nil =>
        cases x with
        | text b => exact absurd rfl hx
        | _ => rfl
      | cons z v => cases z <;> rfl
    | _ => rfl

end Symbol

/-! ## Trees -/

namespace Tree

open Spintax.Symbol (join joinAll joinAll_cons joinAll_append_cons)

/-- A tree in front of others, joined to the next one if both are texts. -/
def fuse : Tree → List Tree → Tree × List Tree
  | .text a l, .text b m :: ts => (.text (a ++ b) (l.spanTo m), ts)
  | t, ts => (t, ts)

def fuseAll : List Tree → List Tree
  | [] => []
  | t :: ts =>
    let (u, us) := fuse t (fuseAll ts)
    u :: us

mutual

/-- Each pattern in the tree has no two texts next to each other any more. -/
def joined : Tree → Tree
  | .pattern first rest l =>
    let (first, rest) := fuse first.joined (fuseAll (joinedEach rest))
    .pattern first rest l
  | .block first rest l => .block first.joined (joinedEach rest) l
  | t => t

def joinedEach : List Tree → List Tree
  | [] => []
  | t :: ts => t.joined :: joinedEach ts

end

theorem joinedEach_eq (ts : List Tree) : joinedEach ts = ts.map joined := by
  induction ts with
  | nil => rfl
  | cons t ts ih => rw [joinedEach, ih, List.map_cons]

theorem joined_pattern (first : Tree) (rest : List Tree) (l : Location) :
    ∃ first' rest', joined (.pattern first rest l) = .pattern first' rest' l ∧
      fuseAll ((first :: rest).map joined) = first' :: rest' := by
  rw [joined, joinedEach_eq]
  exact ⟨_, _, rfl, rfl⟩

/-! ### Shape and symbols -/

section Shape

variable {n : Nat}

theorem isPart_fuse {t : Tree} {ts : List Tree} (ht : t.IsPart n) (hts : ∀ u ∈ ts, u.IsPart n) :
    ∀ u ∈ (fuse t ts).1 :: (fuse t ts).2, u.IsPart n := by
  unfold fuse
  split
  · rename_i a l b m us
    intro u hu
    rcases List.mem_cons.1 hu with rfl | hu
    · simp [IsPart]
    · exact hts u (by simp [hu])
  · intro u hu
    rcases List.mem_cons.1 hu with rfl | hu
    · exact ht
    · exact hts u hu

theorem isPart_fuseAll {ts : List Tree} (h : ∀ t ∈ ts, t.IsPart n) :
    ∀ u ∈ fuseAll ts, u.IsPart n := by
  induction ts with
  | nil => exact h
  | cons t ts ih => exact isPart_fuse (h t (by simp)) (ih fun u hu => h u (by simp [hu]))

theorem symbols_fuse_text (a : String) (l : Location) {ts : List Tree}
    (h : ∀ t ∈ ts, t.IsPart n) :
    symbolsAll ((fuse (.text a l) ts).1 :: (fuse (.text a l) ts).2) =
      join (.text a) (symbolsAll ts) := by
  cases ts with
  | nil => rfl
  | cons t ts =>
    rcases (h t (by simp)).symbols_cases with ⟨b, m, rfl⟩ | ⟨w, hw⟩
    · rfl
    · have hfuse : fuse (.text a l) (t :: ts) = (.text a l, t :: ts) := by
        cases t with
        | text b m => cases hw
        | _ => rfl
      rw [hfuse, symbolsAll, symbolsAll, hw]
      rfl

/-- A part and what becomes of it: a text stays, and a block keeps its braces. -/
theorem IsPart.fuse_joined {t : Tree} (h : t.IsPart n) :
    (∃ a l, t = .text a l) ∨
      (∃ w, t.symbols = .opening :: (w ++ [.closing])) ∧
        ∀ us, fuse t.joined us = (t.joined, us) := by
  cases t with
  | text a l => exact .inl ⟨a, l, rfl⟩
  | block first rest l =>
    exact .inr ⟨⟨first.symbols ++ symbolsBarred rest, rfl⟩, fun us => rfl⟩
  | _ => cases n <;> simp [IsPart] at h

theorem symbols_fuseAll {ts : List Tree} (h : ∀ t ∈ ts, t.IsPart n)
    (hj : ∀ t ∈ ts, t.joined.IsPart n ∧ t.joined.symbols = joinAll t.symbols) :
    symbolsAll (fuseAll (ts.map joined)) = joinAll (symbolsAll ts) := by
  induction ts with
  | nil => rfl
  | cons t ts ih =>
    have hrest := ih (fun u hu => h u (by simp [hu])) fun u hu => hj u (by simp [hu])
    obtain ⟨hpart, hsymbols⟩ := hj t (by simp)
    have hparts : ∀ u ∈ fuseAll (ts.map joined), u.IsPart n := by
      exact isPart_fuseAll (List.forall_mem_map.2 fun u hu => (hj u (by simp [hu])).1)
    rcases (h t (by simp)).fuse_joined with ⟨a, l, rfl⟩ | ⟨⟨w, hw⟩, hfuse⟩
    · exact (symbols_fuse_text a l hparts).trans (by rw [hrest]; rfl)
    · have hclosing : Symbol.closing.kind ≠ .text := by simp [Symbol.kind]
      have hall : symbolsAll (t :: ts) = (.opening :: w) ++ .closing :: symbolsAll ts := by
        rw [symbolsAll, hw]
        simp
      have hone : joinAll t.symbols = joinAll (.opening :: w) ++ [.closing] := by
        rw [hw, ← List.cons_append, joinAll_append_cons hclosing]
        rfl
      rw [List.map_cons, fuseAll, hfuse, hall, joinAll_append_cons hclosing]
      show t.joined.symbols ++ symbolsAll (fuseAll (ts.map joined)) = _
      rw [hsymbols, hone, hrest, List.append_assoc]
      rfl

theorem joinAll_barred {ts : List Tree} (h : ∀ t ∈ ts, t.joined.symbols = joinAll t.symbols)
    (u : List Symbol) :
    joinAll (u ++ (symbolsBarred ts ++ [.closing])) =
      joinAll u ++ (symbolsBarred (ts.map joined) ++ [.closing]) := by
  induction ts generalizing u with
  | nil => exact joinAll_append_cons (by simp [Symbol.kind]) u []
  | cons t ts ih =>
    rw [symbolsBarred, List.cons_append, List.append_assoc,
      joinAll_append_cons (by simp [Symbol.kind]), ih fun v hv => h v (by simp [hv])]
    rw [← h t (by simp), List.map_cons, symbolsBarred, List.cons_append, List.append_assoc]

/-- A tree of the shape of the grammar keeps it, and its symbols are joined. -/
def Joins (IsShape : Nat → Tree → Prop) (n : Nat) (t : Tree) : Prop :=
  IsShape n t ∧ IsShape n t.joined ∧ t.joined.symbols = joinAll t.symbols

theorem shape_joined (t : Tree) :
    (∀ n, t.IsPattern n → Joins IsPattern n t) ∧ ∀ n, t.IsPart n → Joins IsPart n t := by
  refine shape_induct (P := Joins IsPattern) (Q := Joins IsPart) ?_ ?_ ?_ t
  · intro n content l
    have ht : (Tree.text content l).IsPart n := by simp [IsPart]
    exact ⟨ht, ht, rfl⟩
  · intro n first rest l h
    obtain ⟨first', rest', heq, hfused⟩ := joined_pattern first rest l
    have hparts : ∀ u ∈ first' :: rest', u.IsPart n := by
      rw [← hfused]
      exact isPart_fuseAll (List.forall_mem_map.2 fun u hu => (h u hu).2.1)
    have hsymbols := symbols_fuseAll (fun u hu => (h u hu).1) fun u hu => (h u hu).2
    rw [hfused] at hsymbols
    refine ⟨isPattern_iff.2 fun u hu => (h u hu).1, ?_⟩
    rw [heq]
    exact ⟨isPattern_iff.2 hparts, hsymbols⟩
  · intro n first rest l hf hr
    refine ⟨⟨hf.1, arePatterns_iff.2 fun u hu => (hr u hu).1⟩, ?_⟩
    rw [joined, joinedEach_eq]
    refine ⟨⟨hf.2.1, arePatterns_iff.2 (List.forall_mem_map.2 fun u hu => (hr u hu).2.1)⟩, ?_⟩
    · have hbarred := joinAll_barred (fun u hu => (hr u hu).2.2) first.symbols
      rw [symbols, symbols, joinAll_cons, List.append_assoc, List.append_assoc, hbarred, hf.2.2]
      rfl

theorem IsPattern.joined {t : Tree} (h : t.IsPattern n) : t.joined.IsPattern n :=
  ((shape_joined t).1 n h).2.1

theorem symbols_joined {t : Tree} (h : t.IsPattern n) : t.joined.symbols = joinAll t.symbols :=
  ((shape_joined t).1 n h).2.2

/-- Trees with the same joined symbols are the same once they are joined. -/
theorem same_joined {t u : Tree} (ht : t.IsPattern n) (hu : u.IsPattern n)
    (h : joinAll t.symbols = joinAll u.symbols) : t.joined.same u.joined :=
  same_of_symbols ht.joined hu.joined (by rw [symbols_joined ht, symbols_joined hu, h])

end Shape

end Tree

/-! ## Meanings -/

namespace Evaluation

open Spintax.Tree (fuse fuseAll joined)

variable {σ ε : Type} {draw : Source σ ε}

theorem denoteAll_fuse (t : Tree) (ts : List Tree) :
    denoteAll draw ((fuse t ts).1 :: (fuse t ts).2) = denoteAll draw (t :: ts) := by
  unfold fuse
  split
  · rename_i a l b m us
    funext s
    exact denoteAll_texts a b l m _ us s
  · rfl

theorem denoteAll_fuseAll (ts : List Tree) :
    denoteAll draw (fuseAll ts) = denoteAll draw ts := by
  induction ts with
  | nil => rfl
  | cons t ts ih =>
    show denoteAll draw ((fuse t (fuseAll ts)).1 :: (fuse t (fuseAll ts)).2) = _
    rw [denoteAll_fuse]
    funext s
    rw [denoteAll, denoteAll, ih]

/-- Joined texts mean what they meant apart. -/
theorem denote_joined (t : Tree) : denote draw t.joined = denote draw t := by
  induction t using Tree.children_induct with
  | step t ih =>
    have hchildren : List.Forall₂ (fun t u => denote draw t = denote draw u)
        (t.children.map joined) t.children := by
      rw [List.forall₂_map_left_iff, List.forall₂_same]
      exact ih
    cases t with
    | pattern first rest l =>
      obtain ⟨first', rest', heq, hfused⟩ := Tree.joined_pattern first rest l
      rw [heq]
      show denoteAll draw (first' :: rest') = denoteAll draw (first :: rest)
      rw [← hfused, denoteAll_fuseAll]
      exact denoteAll_congr hchildren
    | block first rest l =>
      rw [joined, Tree.joinedEach_eq]
      exact denote_block_congr hchildren
    | text a l => rfl
    | bare l => rfl
    | value v => rfl

theorem denote_eq_of_joinAll {n : Nat} {t u : Tree} (ht : t.IsPattern n) (hu : u.IsPattern n)
    (h : Symbol.joinAll t.symbols = Symbol.joinAll u.symbols) : denote draw t = denote draw u := by
  have hv : t.joined.Valueless := Tree.IsShaped.valueless (.inl ht.joined)
  rw [← denote_joined t, ← denote_joined u]
  exact denote_of_same t.joined hv u.joined (Tree.same_joined ht hu h)

end Evaluation
end Spintax
