import Spintax.Generation
import Spintax.Proofs.EvaluationCorrect
import Spintax.Proofs.Sameness

/-!
# Spintax.Proofs.Meanings

When trees mean the same, and how the meaning of a list of trees is made of the meanings of its
parts. All equations are between whole meanings: text or fault, bounds asked for, and source.

* `denoteAll_append`: lists one behind the other.
* `denoteAll_texts`: two texts next to each other and the one they make.
* `denote_of_same`: places mean nothing.
* `Generation.run_of_compile`: a template that compiles is run by its tree.
-/

namespace Spintax
namespace Evaluation

variable {σ ε : Type}

theorem andThen_ok (a : String) (bs : List Int) (s : σ) (next : σ → Meaning σ ε) :
    (⟨.ok a, bs, s⟩ : Meaning σ ε).andThen next =
      ⟨(next s).result.map (a ++ ·), bs ++ (next s).bounds, (next s).source⟩ := rfl

theorem andThen_assoc (m : Meaning σ ε) (f g : σ → Meaning σ ε) :
    (m.andThen f).andThen g = m.andThen fun s => (f s).andThen g := by
  obtain ⟨r, bs, s⟩ := m
  cases r with
  | error e => rfl
  | ok a =>
    simp only [andThen_ok]
    obtain ⟨r', bs', s'⟩ := f s
    cases r' with
    | error e => rfl
    | ok b =>
      show (⟨.ok (a ++ b), bs ++ bs', s'⟩ : Meaning σ ε).andThen g = _
      simp only [andThen_ok, List.append_assoc]
      cases (g s').result with
      | error e => rfl
      | ok c => simp only [Except.map, String.append_assoc]

theorem empty_andThen (s : σ) (next : σ → Meaning σ ε) :
    (⟨.ok "", [], s⟩ : Meaning σ ε).andThen next = next s := by
  rw [andThen_ok]
  cases h : next s with
  | mk r bs s' =>
    cases r with
    | error e => rfl
    | ok a => simp [Except.map]

variable {draw : Source σ ε}

theorem andThen_nil (m : Meaning σ ε) : m.andThen (denoteAll draw []) = m := by
  obtain ⟨r, bs, s⟩ := m
  cases r with
  | error e => rfl
  | ok a => simp [andThen_ok, denoteAll, Except.map]

theorem denoteAll_append (ts us : List Tree) (s : σ) :
    denoteAll draw (ts ++ us) s = (denoteAll draw ts s).andThen (denoteAll draw us) := by
  induction ts generalizing s with
  | nil => exact (empty_andThen s _).symm
  | cons t ts ih =>
    have hrest : denoteAll draw (ts ++ us) =
        fun s => (denoteAll draw ts s).andThen (denoteAll draw us) := funext ih
    rw [List.cons_append, denoteAll, denoteAll, hrest, andThen_assoc]

/-- A text means the same as its two halves. -/
theorem denoteAll_texts (a b : String) (l m k : Location) (ts : List Tree) (s : σ) :
    denoteAll draw (.text (a ++ b) k :: ts) s =
      denoteAll draw (.text a l :: .text b m :: ts) s := by
  simp only [denoteAll, denote, andThen_ok, List.nil_append]
  cases (denoteAll draw ts s).result with
  | error e => rfl
  | ok c => simp only [Except.map, String.append_assoc]

theorem denoteAll_congr {ts us : List Tree}
    (h : List.Forall₂ (fun t u => denote draw t = denote draw u) ts us) :
    denoteAll draw ts = denoteAll draw us := by
  induction h with
  | nil => rfl
  | cons h _ ih =>
    funext s
    rw [denoteAll, denoteAll, h, ih]

/-- Only the meanings of its options count for the meaning of a block. -/
theorem denote_block_congr {first first' : Tree} {rest rest' : List Tree} {l l' : Location}
    (h : List.Forall₂ (fun t u => denote draw t = denote draw u) (first :: rest)
      (first' :: rest')) :
    denote draw (.block first rest l) = denote draw (.block first' rest' l') := by
  have hlen : rest.length = rest'.length := by
    simpa using h.length_eq
  have heach : denote draw first :: denoteEach draw rest =
      denote draw first' :: denoteEach draw rest' := by
    rw [denoteEach_eq, denoteEach_eq, ← List.map_cons, ← List.map_cons]
    generalize first :: rest = ts at h
    generalize first' :: rest' = us at h
    induction h with
    | nil => rfl
    | cons h _ ih => rw [List.map_cons, List.map_cons, h, ih]
  funext s
  rw [denote, denote, hlen, heach]

theorem forall₂_denote {ts us : List Tree}
    (h : ∀ t ∈ ts, ∀ u, t.same u → denote draw t = denote draw u) (hs : Tree.sameAll ts us) :
    List.Forall₂ (fun t u => denote draw t = denote draw u) ts us := by
  rw [Tree.sameAll_iff] at hs
  induction hs with
  | nil => exact .nil
  | cons htu _ ih => exact .cons (h _ (by simp) _ htu) (ih fun t ht => h t (by simp [ht]))

/-- Trees that differ in their places only mean the same. -/
theorem denote_of_same (t : Tree) (ht : t.Valueless) :
    ∀ u, t.same u → denote draw t = denote draw u := by
  induction t using Tree.children_induct with
  | step t ih =>
    have hchildren : ∀ c ∈ t.children, ∀ u, c.same u → denote draw c = denote draw u :=
      fun c hc => ih c hc (ht.child hc)
    intro u hu
    cases t with
    | text a l =>
      obtain ⟨m, rfl⟩ := Tree.same_text_iff.1 hu
      funext s
      rw [denote, denote]
    | pattern first rest l =>
      obtain ⟨first', rest', m, rfl, h⟩ := Tree.same_pattern_iff.1 hu
      exact denoteAll_congr (forall₂_denote hchildren h)
    | block first rest l =>
      obtain ⟨first', rest', m, rfl, h⟩ := Tree.same_block_iff.1 hu
      exact denote_block_congr (forall₂_denote hchildren h)
    | bare l =>
      obtain ⟨m, rfl⟩ := Tree.same_bare_iff.1 hu
      funext s
      rw [denote, denote]
      rfl
    | value v => exact absurd .self (ht v)

theorem denote_of_isPattern {n : Nat} {t : Tree} (h : t.IsPattern n) :
    denote draw t = denoteAll draw t.children := by
  obtain ⟨first, rest, l, rfl⟩ := h.exists_eq
  rfl

end Evaluation

namespace Generation

open Evaluation (denote)

variable {σ ε : Type}

/-- A template that compiles is run by its tree. -/
theorem run_of_compile {limit : Nat} {file : Option String} {text : String} {t : Tree}
    (h : (Template.compile limit file text).value = .ok t) (draw : Source σ ε) (s : σ) :
    (run draw limit file (.source text) s).result =
        (denote draw t s).result.mapError .evaluation ∧
      (run draw limit file (.source text) s).source = (denote draw t s).source := by
  have htree : ((Input.source text).toTree limit file : Recorded (Except (Fault ε) Tree)) =
      ⟨.ok t, (Template.compile limit file text).events⟩ := by
    rw [Input.toTree, h]
    rfl
  rw [run, htree]
  constructor
  · simp only [Evaluation.evaluate_eq]
  · simp only [Evaluation.evaluate_eq]

end Generation
end Spintax
