import Mathlib.Probability.Distributions.Uniform
import Mathlib.Probability.Independence.InfinitePi
import Spintax.Proofs.Courses

/-!
# Spintax.Proofs.Sampling

The evaluator as a sampler. The lists of picks that it uses up, with every pick in range, are the
leaves of a finite tree of choices: there are finitely many, none is the beginning of another, and
their chances add up to 1.

* `Complete t picks`, `chance t picks`: such lists, and the product of `1 / bound` over their picks.
* `drawn draw t s`: the picks that a source gives to a tree.
* `Tape`, `Tape.uniform`: independent uniform answers to all bounds at all times.
* `uniform_drawn`: the probability that a run on such a tape draws a complete list is its chance.
* `sum_chance`: the chances of all complete lists add up to 1.
* `evaluate_samples`: all this for the evaluator, with any fair source.
-/

namespace Spintax
namespace Evaluation

open MeasureTheory

/-! ## Complete lists of picks -/

/-- The bounds that a tree asks of a list of picks. -/
def asked (t : Tree) (picks : List Int) : List Int :=
  (evaluate (logged Chooser.draw) t (.scripted picks, [])).2.2

/-- The tree draws exactly as often as there are picks, and all picks are in range. -/
def Complete (t : Tree) (picks : List Int) : Prop :=
  List.Forall₂ InRange picks (asked t picks)

/-- The chance of the picks among all that could have been given to the same bounds. -/
def chance (t : Tree) (picks : List Int) : ℚ :=
  ((asked t picks).map fun bound : Int => 1 / (bound : ℚ)).prod

variable {t : Tree}

theorem asked_eq (t : Tree) (picks : List Int) :
    asked t picks = (denote Chooser.draw t (.scripted picks)).bounds := by
  rw [asked, evaluate_eq, denote_logged]
  rfl

theorem answers_scripted (c : Course) (more : List Int) :
    Answers Chooser.draw (.scripted (c.map Prod.fst ++ more)) c (.scripted more) := by
  induction c with
  | nil => exact .nil
  | cons x c ih => exact .cons rfl ih

theorem of_answers_scripted {picks : List Int} {c : Course} {s : Chooser}
    (h : Answers Chooser.draw (.scripted picks) c s) : ∃ more, picks = c.map Prod.fst ++ more := by
  generalize hs : Chooser.scripted picks = s₀ at h
  induction h generalizing picks with
  | nil => exact ⟨picks, rfl⟩
  | cons hd _ ih =>
    subst hs
    cases picks with
    | nil => cases hd
    | cons pick picks =>
      cases hd
      obtain ⟨more, rfl⟩ := ih rfl
      exact ⟨more, rfl⟩

theorem ready_scripted {picks bounds : List Int} (h : List.Forall₂ InRange picks bounds) :
    Ready Chooser.draw (.scripted picks) bounds := by
  induction h with
  | nil => trivial
  | cons hp _ ih => exact ⟨_, _, rfl, hp, ih⟩

/-- What is behind the picks of a course is not asked for. -/
theorem asked_of_course {c : Course} (hc : c ∈ courses t) (more : List Int) :
    asked t (c.map Prod.fst ++ more) = c.map Prod.snd := by
  obtain ⟨w, hw⟩ := decides_of_course t c hc
  rw [asked_eq, hw _ _ _ (answers_scripted c more)]

theorem complete_of_course {c : Course} (hc : c ∈ courses t) : Complete t (c.map Prod.fst) := by
  have hasked := asked_of_course hc []
  rw [List.append_nil] at hasked
  rw [Complete, hasked, List.forall₂_map_left_iff, List.forall₂_map_right_iff, List.forall₂_same]
  exact inRange_of_mem_courses t c hc

theorem course_of_complete (ht : t.Proper) {picks : List Int} (h : Complete t picks) :
    ∃ c ∈ courses t, c.map Prod.fst = picks := by
  have hready := ready_scripted h
  rw [asked_eq] at hready
  obtain ⟨c, hc, s, hs⟩ := exists_course t ht _ hready
  obtain ⟨more, rfl⟩ := of_answers_scripted hs
  have hlength := h.length_eq
  rw [asked_of_course hc, List.length_append, List.length_map, List.length_map] at hlength
  obtain rfl : more = [] := List.length_eq_zero_iff.1 (by omega)
  exact ⟨c, hc, (List.append_nil _).symm⟩

theorem complete_iff (ht : t.Proper) {picks : List Int} :
    Complete t picks ↔ picks ∈ ((courses t).map fun c => c.map Prod.fst).toFinset := by
  rw [List.mem_toFinset, List.mem_map]
  constructor
  · exact course_of_complete ht
  · rintro ⟨c, hc, rfl⟩
    exact complete_of_course hc

/-- No complete list goes on where another one ends. -/
theorem Complete.eq_of_begins (ht : t.Proper) {p q : List Int} (hp : Complete t p)
    (hq : Complete t q) (h : p <+: q) : p = q := by
  obtain ⟨c, hc, rfl⟩ := course_of_complete ht hp
  -- the longer list is not asked for more than its beginning, so nothing is left of it
  obtain ⟨more, rfl⟩ := h
  have hlength := hq.length_eq
  rw [asked_of_course hc, List.length_append, List.length_map, List.length_map] at hlength
  obtain rfl : more = [] := List.length_eq_zero_iff.1 (by omega)
  rw [List.append_nil]

/-! ## The picks of a run -/

section Drawn

variable {σ ε : Type}

/-- The same source, with a list of the picks it has given. -/
def noted (draw : Source σ ε) : Source (σ × List Int) ε := fun (s, given) bound =>
  match draw s bound with
  | (.ok pick, s') => (.ok pick, s', given ++ [pick])
  | (.error e, s') => (.error e, s', given)

/-- The picks that the source gives to the tree. -/
def drawn (draw : Source σ ε) (t : Tree) (s : σ) : List Int :=
  (evaluate (noted draw) t (s, [])).2.2

theorem Answers.noted {draw : Source σ ε} {s s' : σ} {c : Course} (h : Answers draw s c s')
    (given : List Int) :
    Answers (noted draw) (s, given) c (s', given ++ c.map Prod.fst) := by
  induction h generalizing given with
  | nil =>
    rw [List.map_nil, List.append_nil]
    exact .nil
  | @cons s s₁ s' pick bound c hd _ ih =>
    have hnoted : Evaluation.noted draw (s, given) bound = (.ok pick, s₁, given ++ [pick]) := by
      simp only [Evaluation.noted, hd]
    have h := ih (given ++ [pick])
    rw [List.append_assoc] at h
    exact .cons hnoted h

theorem drawn_of_answers {draw : Source σ ε} {s s' : σ} {c : Course} (hc : c ∈ courses t)
    (h : Answers draw s c s') : drawn draw t s = c.map Prod.fst := by
  obtain ⟨w, hw⟩ := decides_of_course t c hc
  rw [drawn, evaluate_eq, hw _ _ _ (h.noted []), List.nil_append]

theorem exists_course_of_fair (ht : t.Proper) {draw : Source σ ε} {s : σ} (h : Fair draw s) :
    ∃ c ∈ courses t, ∃ s', Answers draw s c s' ∧ drawn draw t s = c.map Prod.fst := by
  obtain ⟨c, hc, s', hs⟩ := exists_course t ht s (h.ready (one_le_bounds t s))
  exact ⟨c, hc, s', hs, drawn_of_answers hc hs⟩

/-- A fair run draws a complete list. What it makes is what is made of that list. -/
theorem drawn_complete (ht : t.Proper) {draw : Source σ ε} {s : σ} (h : Fair draw s) :
    Complete t (drawn draw t s) ∧
      ∃ w s', evaluate draw t s = (.ok w, s') ∧
        evaluate Chooser.draw t (.scripted (drawn draw t s)) = (.ok w, .scripted []) := by
  obtain ⟨c, hc, s', hs, hdrawn⟩ := exists_course_of_fair ht h
  obtain ⟨w, hw⟩ := decides_of_course t c hc
  have hscript := answers_scripted c []
  rw [List.append_nil] at hscript
  rw [hdrawn]
  refine ⟨complete_of_course hc, w, s', ?_, ?_⟩
  · rw [evaluate_eq, hw _ _ _ hs]
  · rw [evaluate_eq, hw _ _ _ hscript]

end Drawn

/-! ## Independent uniform draws -/

/-- A value for each time and each bound, where `(n, b)` stands for the bound `b + 1` at time
`n`. -/
abbrev Tape : Type := (i : ℕ × ℕ) → Fin (i.2 + 1)

namespace Tape

def answer (ω : Tape) (n : ℕ) (bound : Int) : Int :=
  (ω (n, bound.toNat - 1)).val

/-- Gives one answer at a time. The state is the number of answers given. -/
def draw (ω : Tape) : Source ℕ Empty := fun n bound =>
  (.ok (ω.answer n bound), n + 1)

/-- All values are uniform below their bounds, and independent of each other. -/
noncomputable def uniform : Measure Tape :=
  Measure.infinitePi fun i => (PMF.uniformOfFintype (Fin (i.2 + 1))).toMeasure

instance : IsProbabilityMeasure uniform := by
  unfold uniform
  infer_instance

theorem fair (ω : Tape) (n : ℕ) : Fair ω.draw n := by
  intro m _ bound hb
  have hlt := (ω (m, bound.toNat - 1)).isLt
  refine ⟨_, rfl, Int.natCast_nonneg _, ?_⟩
  rw [answer]
  simp only at hlt
  omega

theorem measurable_answer (n : ℕ) (bound : Int) : Measurable fun ω : Tape => ω.answer n bound :=
  (Measurable.of_discrete (f := fun k : Fin _ => (k.val : Int))).comp (measurable_pi_apply _)

theorem measurePreserving_cell (i : ℕ × ℕ) : MeasurePreserving (fun ω : Tape => ω i) uniform
    (PMF.uniformOfFintype (Fin (i.2 + 1))).toMeasure :=
  measurePreserving_eval_infinitePi _ i

/-- Each pick in range has the same probability. -/
theorem uniform_answer (n : ℕ) {pick bound : Int} (h : InRange pick bound) :
    uniform.real {ω | ω.answer n bound = pick} = 1 / (bound : ℝ) := by
  obtain ⟨k, rfl⟩ := Int.eq_ofNat_of_zero_le h.1
  obtain ⟨b, rfl⟩ : ∃ b : ℕ, bound = ((b + 1 : ℕ) : Int) :=
    ⟨bound.toNat - 1, by have := h.1; have := h.2; omega⟩
  have hk : k < b + 1 := Int.ofNat_lt.1 h.2
  have hset : {ω : Tape | ω.answer n ((b + 1 : ℕ) : Int) = (k : Int)} =
      Set.preimage (fun ω => ω (n, b)) {⟨k, hk⟩} := by
    ext ω
    change ((ω (n, b)).val : Int) = k ↔ ω (n, b) = ⟨k, hk⟩
    rw [Int.ofNat_inj, Fin.ext_iff]
  rw [hset, (measurePreserving_cell (n, b)).measureReal_preimage
      (measurableSet_singleton _).nullMeasurableSet,
    measureReal_def, PMF.toMeasure_apply_singleton _ _ (measurableSet_singleton _),
    PMF.uniformOfFintype_apply, Fintype.card_fin, ENNReal.toReal_inv, ENNReal.toReal_natCast,
    one_div, Int.cast_natCast]

/-- Answers at different times are independent, whatever the bounds are. -/
theorem independent_answers {ι : Type} {time : ι → ℕ} (htime : Function.Injective time)
    (bound : ι → Int) :
    ProbabilityTheory.iIndepFun (fun i (ω : Tape) => ω.answer (time i) (bound i)) uniform := by
  have hcells : ProbabilityTheory.iIndepFun (fun i (ω : Tape) => ((ω i).val : Int)) uniform :=
    ProbabilityTheory.iIndepFun_infinitePi
      (P := fun i : ℕ × ℕ => (PMF.uniformOfFintype (Fin (i.2 + 1))).toMeasure)
      (X := fun i (k : Fin (i.2 + 1)) => (k.val : Int)) fun i => Measurable.of_discrete
  have hinj : Function.Injective fun i => (time i, (bound i).toNat - 1) :=
    fun i j h => htime (congrArg Prod.fst h)
  exact hcells.precomp hinj

theorem answers_cons_iff {ω : Tape} {n m : ℕ} {x : Int × Int} {c : Course} :
    Answers ω.draw n (x :: c) m ↔ ω.answer n x.2 = x.1 ∧ Answers ω.draw (n + 1) c m := by
  constructor
  · rintro (_ | ⟨hd, h⟩)
    cases hd
    exact ⟨rfl, h⟩
  · rintro ⟨hx, h⟩
    exact .cons (Prod.ext (congrArg Except.ok hx) rfl) h

theorem answers_iff {ω : Tape} {n : ℕ} {c : Course} :
    (∃ m, Answers ω.draw n c m) ↔
      ∀ i : Fin c.length, ω.answer (n + i) (c.get i).2 = (c.get i).1 := by
  induction c generalizing n with
  | nil => exact ⟨fun _ i => i.elim0, fun _ => ⟨n, .nil⟩⟩
  | cons x c ih =>
    have hnext : ∀ i : Fin c.length, n + 1 + (i : ℕ) = n + (i.succ : Fin (c.length + 1)) := by
      intro i
      rw [Fin.val_succ]
      omega
    simp only [answers_cons_iff, exists_and_left, ih, hnext]
    constructor
    · rintro ⟨hx, hrest⟩
      exact Fin.cases hx hrest
    · intro h
      exact ⟨h ⟨0, Nat.succ_pos _⟩, fun i => h i.succ⟩

theorem setOf_answers (n : ℕ) (c : Course) :
    {ω : Tape | ∃ m, Answers ω.draw n c m} =
      ⋂ i : Fin c.length, Set.preimage (fun ω => ω.answer (n + i) (c.get i).2) {(c.get i).1} := by
  ext ω
  rw [Set.mem_iInter]
  exact answers_iff

theorem measurableSet_answers (n : ℕ) (c : Course) :
    MeasurableSet {ω : Tape | ∃ m, Answers ω.draw n c m} := by
  rw [setOf_answers]
  exact .iInter fun i => measurable_answer _ _ (measurableSet_singleton _)

theorem uniform_answers (n : ℕ) {c : Course} (hc : ∀ x ∈ c, InRange x.1 x.2) :
    uniform.real {ω | ∃ m, Answers ω.draw n c m} = (c.map fun x => 1 / (x.2 : ℝ)).prod := by
  have htime : Function.Injective fun i : Fin c.length => n + (i : ℕ) :=
    fun i j h => Fin.ext (Nat.add_left_cancel h)
  have hindep := independent_answers htime fun i => (c.get i).2
  rw [setOf_answers, measureReal_def,
    hindep.meas_iInter fun i => ⟨_, measurableSet_singleton _, rfl⟩, ENNReal.toReal_prod]
  calc ∏ i : Fin c.length, uniform.real {ω | ω.answer (n + i) (c.get i).2 = (c.get i).1}
    _ = ∏ i : Fin c.length, 1 / ((c.get i).2 : ℝ) :=
      Finset.prod_congr rfl fun i _ => uniform_answer _ (hc _ (List.getElem_mem i.isLt))
    _ = (c.map fun x => 1 / (x.2 : ℝ)).prod :=
      Fin.prod_univ_fun_getElem c fun x => 1 / (x.2 : ℝ)

end Tape

theorem course_ext {c d : Course} (hc : c ∈ courses t) (hd : d ∈ courses t)
    (h : c.map Prod.fst = d.map Prod.fst) : c = d := by
  have hbounds : c.map Prod.snd = d.map Prod.snd := by
    rw [← asked_of_course hc [], ← asked_of_course hd [], h]
  exact (List.zip_of_prod h hbounds).trans (List.zip_of_prod rfl rfl).symm

theorem setOf_drawn (ht : t.Proper) {c : Course} (hc : c ∈ courses t) :
    {ω : Tape | drawn ω.draw t 0 = c.map Prod.fst} = {ω | ∃ m, Answers ω.draw 0 c m} := by
  ext ω
  constructor
  · intro h
    obtain ⟨d, hd, m, hm, hdrawn⟩ := exists_course_of_fair ht (ω.fair 0)
    -- the tape takes some course, and the picks alone tell which one
    obtain rfl := course_ext hc hd (h.symm.trans hdrawn)
    exact ⟨m, hm⟩
  · rintro ⟨m, hm⟩
    exact drawn_of_answers hc hm

theorem measurableSet_drawn (ht : t.Proper) {picks : List Int} (h : Complete t picks) :
    MeasurableSet {ω : Tape | drawn ω.draw t 0 = picks} := by
  obtain ⟨c, hc, rfl⟩ := course_of_complete ht h
  rw [setOf_drawn ht hc]
  exact Tape.measurableSet_answers 0 c

/-- With independent uniform draws, a run draws a complete list with the probability that is its
chance. -/
theorem uniform_drawn (ht : t.Proper) {picks : List Int} (h : Complete t picks) :
    Tape.uniform.real {ω | drawn ω.draw t 0 = picks} = chance t picks := by
  obtain ⟨c, hc, rfl⟩ := course_of_complete ht h
  have hasked := asked_of_course hc []
  rw [List.append_nil] at hasked
  rw [setOf_drawn ht hc, Tape.uniform_answers 0 (inRange_of_mem_courses t c hc), chance, hasked,
    List.map_map, Rat.cast_list_prod, List.map_map]
  congr 1
  refine List.map_congr_left fun x _ => ?_
  simp only [Function.comp_apply, Rat.cast_div, Rat.cast_one, Rat.cast_intCast]

/-- The chances are the probabilities of events that no two runs share, one of which happens in
every run. -/
theorem sum_chance (ht : t.Proper) {S : Finset (List Int)}
    (hS : ∀ picks, picks ∈ S ↔ Complete t picks) : ∑ picks ∈ S, chance t picks = 1 := by
  have hall : Set.preimage (fun ω : Tape => drawn ω.draw t 0) S = Set.univ :=
    Set.eq_univ_of_forall fun ω => (hS _).2 (drawn_complete ht (ω.fair 0)).1
  have hsum : ∑ picks ∈ S, (chance t picks : ℝ) = 1 := by
    calc ∑ picks ∈ S, (chance t picks : ℝ)
      _ = ∑ picks ∈ S, Tape.uniform.real {ω | drawn ω.draw t 0 = picks} :=
        Finset.sum_congr rfl fun picks h => (uniform_drawn ht ((hS picks).1 h)).symm
      _ = Tape.uniform.real (Set.preimage (fun ω : Tape => drawn ω.draw t 0) S) :=
        sum_measureReal_preimage_singleton S fun picks h =>
          measurableSet_drawn ht ((hS picks).1 h)
      _ = 1 := by rw [hall, probReal_univ]
  exact_mod_cast hsum

/-- Evaluation of a tree of patterns, blocks and texts samples from its complete lists of picks.
They are finitely many, none goes on where another one ends, and their chances add up to 1. A run
with a fair source ends in one of them, and does what a run on that list does. With independent
uniform draws it ends in each of them with just its chance. -/
theorem evaluate_samples {t : Tree} (ht : t.Proper) :
    ∃ S : Finset (List Int), (∀ picks, picks ∈ S ↔ Complete t picks) ∧
      (∀ p ∈ S, ∀ q ∈ S, p <+: q → p = q) ∧
      ∑ picks ∈ S, chance t picks = 1 ∧
      (∀ {σ ε : Type} (draw : Source σ ε) (s : σ), Fair draw s →
        drawn draw t s ∈ S ∧ ∃ w s', evaluate draw t s = (.ok w, s') ∧
          evaluate Chooser.draw t (.scripted (drawn draw t s)) = (.ok w, .scripted [])) ∧
      ∀ picks ∈ S, Tape.uniform.real {ω | drawn ω.draw t 0 = picks} = chance t picks := by
  have hS (picks : List Int) := (@complete_iff t ht picks).symm
  refine ⟨_, hS, ?_, sum_chance ht hS, ?_, ?_⟩
  · exact fun p hp q hq => ((hS p).1 hp).eq_of_begins ht ((hS q).1 hq)
  · intro σ ε draw s h
    obtain ⟨hcomplete, hruns⟩ := drawn_complete ht h
    exact ⟨(hS _).2 hcomplete, hruns⟩
  · exact fun picks hp => uniform_drawn ht ((hS picks).1 hp)

/-- One of two options has a block in it. The list that picks this option and then the other inner
one is drawn in a quarter of all runs. -/
theorem evaluate_samples_nested :
    let text (content : String) : Tree := .text content .unknown
    let inner : Tree := .pattern (.block (text "b") [text "c"] .unknown) [text "d"] .unknown
    let tree : Tree := .pattern (text "x") [.block (text "a") [inner] .unknown] .unknown
    tree.Proper ∧ Complete tree [1, 0] ∧ ¬ Complete tree [1] ∧ ¬ Complete tree [0, 0] ∧
      Complete tree (drawn Chooser.draw tree (.seeded (.ofSeed 7))) ∧
      Tape.uniform.real {ω | drawn ω.draw tree 0 = [1, 0]} = ((1 / 4 : ℚ) : ℝ) := by
  intro text inner tree
  have htext : ∀ content, (text content).Proper := fun content => Tree.proper_text content .unknown
  have hinner : inner.Proper := by
    refine Tree.proper_pattern (List.forall_mem_cons.2 ⟨Tree.proper_block ?_, ?_⟩)
    · simp [htext]
    · simp [htext]
  have hproper : tree.Proper := by
    refine Tree.proper_pattern (List.forall_mem_cons.2 ⟨htext "x", ?_⟩)
    refine List.forall_mem_cons.2 ⟨Tree.proper_block ?_, by simp⟩
    simp [htext, hinner]
  have hasked : asked tree [1, 0] = [2, 2] := asked_eq tree [1, 0]
  have hcomplete : Complete tree [1, 0] := by
    rw [Complete, hasked]
    simp [InRange]
  have hshort : ¬ Complete tree [1] := fun h =>
    absurd (h.length_eq.trans (congrArg List.length (asked_eq tree [1]))) (by decide)
  have hlong : ¬ Complete tree [0, 0] := fun h =>
    absurd (h.length_eq.trans (congrArg List.length (asked_eq tree [0, 0]))) (by decide)
  obtain ⟨S, hS, -, -, hfair, huniform⟩ := evaluate_samples hproper
  have hdrawn := (hS _).1 (hfair Chooser.draw _ (fair_seeded (.ofSeed 7))).1
  refine ⟨hproper, hcomplete, hshort, hlong, hdrawn, ?_⟩
  rw [huniform _ ((hS _).2 hcomplete), chance, hasked]
  norm_num

end Evaluation
end Spintax
