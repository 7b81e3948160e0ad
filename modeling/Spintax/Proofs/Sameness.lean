import Mathlib.Data.List.Forall2
import Spintax.Proofs.Grammar

/-!
# Spintax.Proofs.Sameness

The trees inside a tree, and trees that differ in their places only.

* `Tree.Within u t`: `u` is `t`, or stands somewhere inside it.
* `Tree.children_induct`: induction with one case for all that has children.
* `Tree.IsShaped n`: a pattern or a part with at most `n` blocks open at once. All that stands
  inside such a tree is one too.
* `same_pattern_iff`, `same_block_iff`: sameness, one level at a time.
* `same_euclidean`: two trees that are the same as a third are the same, if no plain value is in it.
-/

namespace Spintax
namespace Tree

inductive Within (u : Tree) : Tree → Prop where
  | self : Within u u
  | child {c t : Tree} : c ∈ t.children → Within u c → Within u t

/-- Induction over a tree, with the statement for all its children at once. -/
theorem children_induct {P : Tree → Prop} (step : ∀ t, (∀ c ∈ t.children, P c) → P t)
    (t : Tree) : P t := by
  induction t with
  | pattern first rest l hf hr => exact step _ (List.forall_mem_cons.2 ⟨hf, hr⟩)
  | block first rest l hf hr => exact step _ (List.forall_mem_cons.2 ⟨hf, hr⟩)
  | text content l => exact step _ (by simp [children])
  | bare l => exact step _ (by simp [children])
  | value v => exact step _ (by simp [children])

/-- No plain value stands in the tree. -/
def Valueless (t : Tree) : Prop :=
  ∀ v, ¬ (Tree.value v).Within t

theorem Valueless.child {c t : Tree} (h : t.Valueless) (hc : c ∈ t.children) : c.Valueless :=
  fun v hv => h v (.child hc hv)

/-! ## Shapes -/

theorem shape_mono (t : Tree) :
    (∀ n, t.IsPattern n → ∀ m, n ≤ m → t.IsPattern m) ∧
      ∀ n, t.IsPart n → ∀ m, n ≤ m → t.IsPart m := by
  refine shape_induct (P := fun n t => ∀ m, n ≤ m → t.IsPattern m)
    (Q := fun n t => ∀ m, n ≤ m → t.IsPart m) ?_ ?_ ?_ t
  · intro n content l m _
    simp [IsPart]
  · intro n first rest l h m hm
    exact ⟨h first (by simp) m hm, areParts_iff.2 fun u hu => h u (by simp [hu]) m hm⟩
  · intro n first rest l hf hr m hm
    obtain ⟨m, rfl⟩ : ∃ k, m = k + 1 := ⟨m - 1, by omega⟩
    exact ⟨hf m (by omega), arePatterns_iff.2 fun u hu => hr u hu m (by omega)⟩

theorem IsPattern.mono {n m : Nat} {t : Tree} (h : t.IsPattern n) (hm : n ≤ m) : t.IsPattern m :=
  (shape_mono t).1 n h m hm

def IsShaped (n : Nat) (t : Tree) : Prop :=
  t.IsPattern n ∨ t.IsPart n

theorem IsPattern.exists_eq {n : Nat} {t : Tree} (h : t.IsPattern n) :
    ∃ first rest l, t = .pattern first rest l := by
  cases t with
  | pattern first rest l => exact ⟨first, rest, l, rfl⟩
  | _ => simp [IsPattern] at h

theorem isPattern_iff {n : Nat} {first : Tree} {rest : List Tree} {l : Location} :
    (pattern first rest l).IsPattern n ↔ ∀ c ∈ first :: rest, c.IsPart n := by
  rw [IsPattern, areParts_iff, List.forall_mem_cons]

theorem IsPattern.children {n : Nat} {t : Tree} (h : t.IsPattern n) :
    ∀ c ∈ t.children, c.IsPart n := by
  obtain ⟨first, rest, l, rfl⟩ := h.exists_eq
  exact isPattern_iff.1 h

theorem IsPart.children {n : Nat} {t : Tree} (h : t.IsPart n) :
    ∀ c ∈ t.children, c.IsPattern (n - 1) := by
  cases t with
  | text content l => simp [Tree.children]
  | block first rest l =>
    cases n with
    | zero => simp [IsPart] at h
    | succ n =>
      exact List.forall_mem_cons.2 ⟨h.1, arePatterns_iff.1 h.2⟩
  | _ => cases n <;> simp [IsPart] at h

theorem IsShaped.within {n : Nat} {u t : Tree} (hu : u.Within t) (h : t.IsShaped n) :
    u.IsShaped n := by
  induction hu with
  | self => exact h
  | @child c t hc _ ih =>
    refine ih ?_
    rcases h with h | h
    · exact .inr (h.children c hc)
    · exact .inl ((h.children c hc).mono (Nat.sub_le n 1))

theorem IsShaped.valueless {n : Nat} {t : Tree} (h : t.IsShaped n) : t.Valueless := by
  intro v hv
  rcases h.within hv with h | h
  · simp [IsPattern] at h
  · cases n <;> simp [IsPart] at h

/-! ## Sameness -/

theorem sameAll_iff {ts us : List Tree} :
    sameAll ts us ↔ List.Forall₂ (fun t u => t.same u = true) ts us := by
  induction ts generalizing us with
  | nil => cases us <;> simp [sameAll]
  | cons t ts ih => cases us <;> simp [sameAll, ih]

theorem same_text_iff {a : String} {l : Location} {u : Tree} :
    (text a l).same u ↔ ∃ m, u = .text a m := by
  cases u with
  | text b m =>
    constructor
    · intro h
      exact ⟨m, by rw [eq_of_beq h]⟩
    · rintro ⟨m', h⟩
      cases h
      exact beq_self_eq_true a
  | _ => simp [same]

theorem same_pattern_iff {first : Tree} {rest : List Tree} {l : Location} {u : Tree} :
    (pattern first rest l).same u ↔
      ∃ first' rest' m, u = .pattern first' rest' m ∧
        sameAll (first :: rest) (first' :: rest') := by
  cases u with
  | pattern first' rest' m => simp [same, sameAll]
  | _ => simp [same]

theorem same_block_iff {first : Tree} {rest : List Tree} {l : Location} {u : Tree} :
    (block first rest l).same u ↔
      ∃ first' rest' m, u = .block first' rest' m ∧
        sameAll (first :: rest) (first' :: rest') := by
  cases u with
  | block first' rest' m => simp [same, sameAll]
  | _ => simp [same]

theorem same_bare_iff {l : Location} {u : Tree} : (bare l).same u ↔ ∃ m, u = .bare m := by
  cases u <;> simp [same]

theorem sameAll_euclidean {ts us vs : List Tree}
    (h : ∀ t ∈ ts, ∀ u v, t.same u → t.same v → u.same v) (hu : sameAll ts us)
    (hv : sameAll ts vs) : sameAll us vs := by
  rw [sameAll_iff] at hu hv ⊢
  induction hu generalizing vs with
  | nil =>
    cases hv
    exact .nil
  | cons htu _ ih =>
    cases hv with
    | cons htv hv =>
      exact .cons (h _ (by simp) _ _ htu htv) (ih (fun t ht => h t (by simp [ht])) hv)

theorem same_euclidean (t : Tree) (ht : t.Valueless) :
    ∀ u v, t.same u → t.same v → u.same v := by
  induction t using children_induct with
  | step t ih =>
    have hchildren : ∀ c ∈ t.children, ∀ u v, c.same u → c.same v → u.same v :=
      fun c hc => ih c hc (ht.child hc)
    intro u v hu hv
    cases t with
    | text a l =>
      obtain ⟨m, rfl⟩ := same_text_iff.1 hu
      exact same_text_iff.2 (same_text_iff.1 hv)
    | pattern first rest l =>
      obtain ⟨first₁, rest₁, m₁, rfl, h₁⟩ := same_pattern_iff.1 hu
      obtain ⟨first₂, rest₂, m₂, rfl, h₂⟩ := same_pattern_iff.1 hv
      exact same_pattern_iff.2 ⟨first₂, rest₂, m₂, rfl, sameAll_euclidean hchildren h₁ h₂⟩
    | block first rest l =>
      obtain ⟨first₁, rest₁, m₁, rfl, h₁⟩ := same_block_iff.1 hu
      obtain ⟨first₂, rest₂, m₂, rfl, h₂⟩ := same_block_iff.1 hv
      exact same_block_iff.2 ⟨first₂, rest₂, m₂, rfl, sameAll_euclidean hchildren h₁ h₂⟩
    | bare l =>
      obtain ⟨m, rfl⟩ := same_bare_iff.1 hu
      exact same_bare_iff.2 (same_bare_iff.1 hv)
    | value v => exact absurd .self (ht v)

end Tree
end Spintax
