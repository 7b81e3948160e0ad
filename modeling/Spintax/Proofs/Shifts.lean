import Mathlib.Data.List.Induction
import Spintax.Proofs.SweepCorrect

/-!
# Spintax.Proofs.Shifts

A text read behind another one. What has come before moves the marks, and nothing else: where the
first text leaves no block open, the sweep over the second is the sweep over it alone, with all
its marks moved.

* `Mark.behind b m`: the point `m` of a text that starts at `b`.
* `Sweep.steps_behind`: the sweep from `b` on.
* `Sweep.verdict_append`: the objection to a text behind one that is not objected to.
-/

namespace Spintax

/-! ## Marks -/

namespace Mark

/-- Lines and columns start at 1. -/
structure Started (m : Mark) : Prop where
  line : 1 ≤ m.line
  column : 1 ≤ m.column

theorem Started.next {m : Mark} (h : m.Started) (c : Char) : (m.next c).Started := by
  obtain ⟨hl, hc⟩ := h
  unfold Mark.next
  split
  · exact ⟨by simp, by simp⟩
  · exact ⟨hl, by simp⟩

theorem Started.past {m : Mark} (h : m.Started) (cs : List Char) : (m.past cs).Started := by
  induction cs generalizing m with
  | nil => exact h
  | cons c cs ih => exact ih (h.next c)

theorem started : ({} : Mark).Started := ⟨Nat.le_refl 1, Nat.le_refl 1⟩

def behind (b m : Mark) : Mark :=
  ⟨b.line + (m.line - 1), if m.line = 1 then b.column + (m.column - 1) else m.column,
    b.offset + m.offset⟩

@[simp] theorem behind_start (b : Mark) : b.behind {} = b := by
  simp [behind]

theorem next_behind {m : Mark} (h : m.Started) (b : Mark) (c : Char) :
    (b.behind m).next c = b.behind (m.next c) := by
  obtain ⟨hl, hc⟩ := h
  by_cases hn : c = '\n'
  · have h₁ : b.line + (m.line - 1) + 1 = b.line + (m.line + 1 - 1) := by omega
    have h₂ : m.line + 1 ≠ 1 := by omega
    simp only [next, behind, if_pos hn, h₁, if_neg h₂, Nat.add_assoc]
  · simp only [next, behind, if_neg hn, Nat.add_assoc]
    congr 1
    by_cases h₁ : m.line = 1
    · rw [if_pos h₁, if_pos h₁]
      omega
    · rw [if_neg h₁, if_neg h₁]

theorem past_behind {m : Mark} (h : m.Started) (b : Mark) (cs : List Char) :
    (b.behind m).past cs = b.behind (m.past cs) := by
  induction cs generalizing m with
  | nil => rfl
  | cons c cs ih => rw [past_cons, past_cons, next_behind h, ih (h.next c)]

theorem past_column (cs : List Char) : (({} : Mark).past cs).column = 1 + (lastLine cs).length := by
  rw [past_segment]
  by_cases h : '\n' ∈ cs
  · exact if_pos h
  · rw [lastLine_of_not_mem h]
    exact if_neg h

end Mark

/-! ## Sweeps -/

namespace Sweep

def Objection.behind (b : Mark) (o : Objection) : Objection :=
  ⟨o.text, o.mark.map b.behind⟩

def behind (b : Mark) (w : Sweep) : Sweep :=
  ⟨b.behind w.mark, w.opens.map b.behind, w.fresh.map b.behind⟩

theorem start_behind (b : Mark) : ({} : Sweep).behind b = ⟨b, [], none⟩ := by
  simp [behind]

/-- The result of a sweep that started at `b`. -/
def movedBy (b : Mark) : Except Objection Sweep → Except Objection Sweep
  | .ok w => .ok (w.behind b)
  | .error o => .error (o.behind b)

variable {limit : Nat} {w w' : Sweep} {x : Item}

/-- The marks that a step leaves: its own, and those that were there before. -/
theorem step_marks (limit : Nat) (w : Sweep) (x : Item) :
    match w.step limit x with
    | .ok w' => w'.mark = w.mark.past x.chars ∧ (∀ m ∈ w'.opens, m = w.mark ∨ m ∈ w.opens) ∧
        ∀ m ∈ w'.fresh, m = w.mark
    | .error o => o.mark = some w.mark := by
  have hold : ∀ m ∈ w.opens, m = w.mark ∨ m ∈ w.opens := fun m hm => .inr hm
  have hhere : ∀ m ∈ some w.mark, m = w.mark := by simp
  have hnone : ∀ m ∈ (none : Option Mark), m = w.mark := by simp
  unfold step
  by_cases h₁ : x = .single '{'
  · rw [if_pos h₁]
    by_cases hl : limit < w.opens.length + 1
    · rw [if_pos hl]
    · rw [if_neg hl]
      exact ⟨rfl, fun m hm => List.mem_cons.1 hm, hhere⟩
  · rw [if_neg h₁]
    by_cases h₂ : x = .single '}'
    · rw [if_pos h₂]
      by_cases ho : w.opens = []
      · rw [if_pos ho]
      · rw [if_neg ho]
        by_cases hf : w.fresh.isSome
        · rw [if_pos hf]
        · rw [if_neg hf]
          exact ⟨rfl, fun m hm => .inr (List.mem_of_mem_tail hm), hnone⟩
    · rw [if_neg h₂]
      by_cases h₃ : x = .single '|' ∧ w.opens ≠ []
      · rw [if_pos h₃]
        by_cases hf : w.fresh.isSome
        · rw [if_pos hf]
        · rw [if_neg hf]
          exact ⟨rfl, hold, hhere⟩
      · rw [if_neg h₃]
        exact ⟨rfl, hold, hnone⟩

theorem step_mark (h : w.step limit x = .ok w') : w'.mark = w.mark.past x.chars := by
  have hm := step_marks limit w x
  rw [h] at hm
  exact hm.1

theorem steps_mark {xs : List Item} (h : w.steps limit xs = .ok w') :
    w'.mark = w.mark.past (xs.flatMap Item.chars) := by
  induction xs generalizing w with
  | nil =>
    cases h
    rfl
  | cons x xs ih =>
    rw [steps_cons] at h
    cases hs : w.step limit x with
    | error o =>
      rw [hs] at h
      cases h
    | ok w₁ =>
      rw [hs] at h
      rw [ih h, step_mark hs, List.flatMap_cons, Mark.past_append]

theorem step_behind (h : w.mark.Started) (b : Mark) (x : Item) :
    (w.behind b).step limit x = movedBy b (w.step limit x) := by
  have hopens : w.opens.map b.behind = [] ↔ w.opens = [] := List.map_eq_nil_iff
  simp only [step, behind, Mark.past_behind h, List.length_map, ne_eq, hopens, Option.isSome_map]
  by_cases h₁ : x = .single '{'
  · rw [if_pos h₁, if_pos h₁]
    split
    · rfl
    · rfl
  · rw [if_neg h₁, if_neg h₁]
    by_cases h₂ : x = .single '}'
    · rw [if_pos h₂, if_pos h₂]
      split
      · rfl
      · split
        · rfl
        · simp [movedBy, behind]
    · rw [if_neg h₂, if_neg h₂]
      split
      · split
        · rfl
        · rfl
      · rfl

theorem steps_behind (h : w.mark.Started) (b : Mark) (xs : List Item) :
    (w.behind b).steps limit xs = movedBy b (w.steps limit xs) := by
  induction xs generalizing w with
  | nil => rfl
  | cons x xs ih =>
    rw [steps_cons, steps_cons, step_behind h]
    cases hs : w.step limit x with
    | error o => rfl
    | ok w₁ =>
      have h₁ : w₁.mark.Started := by
        rw [step_mark hs]
        exact h.past x.chars
      exact ih h₁

theorem finish_behind (h : w.mark.offset ≠ 0) (b : Mark) :
    (w.behind b).finish = w.finish.map (Objection.behind b) := by
  have h' : (w.behind b).mark.offset ≠ 0 := by
    show b.offset + w.mark.offset ≠ 0
    omega
  rw [finish, finish, if_neg h, if_neg h']
  obtain ⟨mark, opens, fresh⟩ := w
  cases fresh with
  | some m => rfl
  | none => cases opens <;> rfl

/-! ## Places of objections -/

structure Started (w : Sweep) : Prop where
  mark : w.mark.Started
  opens : ∀ m ∈ w.opens, m.Started
  fresh : ∀ m ∈ w.fresh, m.Started

def Objection.Placed (o : Objection) : Prop :=
  ∃ m, o.mark = some m ∧ m.Started

theorem step_started (h : w.Started) (x : Item) :
    match w.step limit x with
    | .ok w' => w'.Started
    | .error o => o.Placed := by
  have hmarks := step_marks limit w x
  cases hs : w.step limit x with
  | error o =>
    rw [hs] at hmarks
    exact ⟨w.mark, hmarks, h.mark⟩
  | ok w' =>
    rw [hs] at hmarks
    obtain ⟨hmark, hopens, hfresh⟩ := hmarks
    refine ⟨?_, ?_, ?_⟩
    · rw [hmark]
      exact h.mark.past x.chars
    · intro m hm
      rcases hopens m hm with rfl | hm
      · exact h.mark
      · exact h.opens m hm
    · intro m hm
      rw [hfresh m hm]
      exact h.mark

theorem steps_started (h : w.Started) (xs : List Item) :
    match w.steps limit xs with
    | .ok w' => w'.Started
    | .error o => o.Placed := by
  induction xs generalizing w with
  | nil => exact h
  | cons x xs ih =>
    have hstep : match w.step limit x with
      | .ok w' => w'.Started
      | .error o => o.Placed := step_started h x
    rw [steps_cons]
    cases hs : w.step limit x with
    | error o =>
      rw [hs] at hstep
      exact hstep
    | ok w₁ =>
      rw [hs] at hstep
      exact ih hstep

theorem finish_placed (h : w.Started) (hm : w.mark.offset ≠ 0) {o : Objection}
    (ho : w.finish = some o) : o.Placed := by
  obtain ⟨mark, opens, fresh⟩ := w
  rw [finish, if_neg hm] at ho
  cases fresh with
  | some m =>
    cases ho
    exact ⟨m, rfl, h.fresh m rfl⟩
  | none =>
    cases opens with
    | nil => cases ho
    | cons m ms =>
      cases ho
      exact ⟨m, rfl, h.opens m (by simp)⟩

/-! ## Texts behind each other -/

theorem flatMap_items (cs : List Char) : (items cs).flatMap Item.chars = cs := by
  fun_induction items cs with
  | case1 => rfl
  | case2 c => rfl
  | case3 e cs ih =>
    rw [List.flatMap_cons, ih]
    rfl
  | case4 c e cs hc ih =>
    rw [List.flatMap_cons, ih]
    rfl

theorem items_append_of_not_lone {cs : List Char} (h : endsLone cs = false) (ds : List Char) :
    items (cs ++ ds) = items cs ++ items ds := by
  fun_induction items cs with
  | case1 => rfl
  | case2 c =>
    have hc : c ≠ '\\' := by simpa [endsLone] using h
    exact items_cons hc ds
  | case3 e cs ih =>
    rw [endsLone, if_pos rfl] at h
    rw [List.cons_append, List.cons_append, items, if_pos rfl, ih h]
    rfl
  | case4 c e cs hc ih =>
    rw [endsLone, if_neg hc] at h
    rw [List.cons_append, items_cons hc, ih h]
    rfl

theorem endsLone_append_of_not_lone {cs : List Char} (h : endsLone cs = false) (ds : List Char) :
    endsLone (cs ++ ds) = endsLone ds := by
  fun_induction endsLone cs with
  | case1 => rfl
  | case2 c =>
    have hc : c ≠ '\\' := by simpa using h
    exact endsLone_cons hc ds
  | case3 e cs ih => rw [List.cons_append, List.cons_append, endsLone, if_pos rfl, ih h]
  | case4 c e cs hc ih =>
    rw [List.cons_append, endsLone_cons hc, ih h]

/-- A text that is not objected to leaves no block open and no option to begin. -/
theorem steps_of_verdict_none {cs : List Char} (h : verdict limit cs = none) :
    steps limit {} (items cs) = .ok ⟨({} : Mark).past cs, [], none⟩ := by
  rw [verdict] at h
  cases hs : steps limit {} (items cs) with
  | error o =>
    rw [hs] at h
    cases h
  | ok w =>
    rw [hs] at h
    have hmark := steps_mark hs
    rw [flatMap_items] at hmark
    obtain ⟨mark, opens, fresh⟩ := w
    simp only [finish] at h
    split at h
    · cases h
    · cases fresh with
      | some m => cases h
      | none =>
        cases opens with
        | cons m ms => cases h
        | nil => rw [← hmark]

theorem offset_of_steps {cs : List Char} (h : steps limit {} (items cs) = .ok w) (hcs : cs ≠ []) :
    w.mark.offset ≠ 0 := by
  have hmark := steps_mark h
  rw [flatMap_items] at hmark
  rw [hmark, Mark.past_offset]
  have := List.length_pos_iff.2 hcs
  omega

/-- Only the empty text is objected to at no place. -/
theorem placed_of_verdict {cs : List Char} {o : Objection} (h : verdict limit cs = some o)
    (hcs : cs ≠ []) : o.Placed := by
  have hstart : ({} : Sweep).Started := ⟨Mark.started, by simp, by simp⟩
  have hsteps : match steps limit {} (items cs) with
    | .ok w => w.Started
    | .error o => o.Placed := steps_started hstart (items cs)
  rw [verdict] at h
  cases hs : steps limit {} (items cs) with
  | error o' =>
    rw [hs] at h hsteps
    cases h
    exact hsteps
  | ok w =>
    rw [hs] at h hsteps
    exact finish_placed hsteps (offset_of_steps hs hcs) h

theorem verdict_append {cs ds : List Char} (h : verdict limit cs = none)
    (hl : endsLone cs = false) (hds : ds ≠ []) :
    verdict limit (cs ++ ds) = (verdict limit ds).map (Objection.behind (({} : Mark).past cs)) := by
  have hmoved : (behind (({} : Mark).past cs) {}).steps limit (items ds) = _ :=
    steps_behind Mark.started _ _
  rw [start_behind] at hmoved
  rw [verdict, items_append_of_not_lone hl, steps_append, steps_of_verdict_none h, verdict]
  simp only [hmoved]
  cases hs : steps limit {} (items ds) with
  | error o => rfl
  | ok w => exact finish_behind (offset_of_steps hs hds) _

end Sweep
end Spintax
