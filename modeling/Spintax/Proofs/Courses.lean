import Spintax.Proofs.Language

/-!
# Spintax.Proofs.Courses

The ways in which the evaluation of a tree can go, as far as they depend on the source: lists of
picks, each with the bound that was asked for. Which bound is next depends on the picks before it,
and an option that is not picked asks for none.

* `Course`, `courses t`: the picks of a run with their bounds, and all such lists for a tree.
* `Answers draw s c s'`: from `s`, the source gives the picks of a course to its bounds.
* `Ready draw s bounds`: from `s`, the source gives picks in range to some bounds.
* `decides_of_course`: a source that answers a course of a tree is asked for just these bounds, and
  the course alone decides what text is made.
* `exists_course`: a source that is ready for the bounds of a tree answers one of its courses.
-/

namespace Spintax
namespace Evaluation

/-- The picks of a run, each with the bound it was asked for. -/
abbrev Course : Type := List (Int × Int)

mutual

/-- The courses of a tree. One of a pattern is made of one of each part. One of a block picks an
option and goes on with one of that option. -/
def courses : Tree → List Course
  | .text _ _ => [[]]
  | .pattern first rest _ =>
    (courses first).flatMap fun c => (coursesAll rest).map (c ++ ·)
  | .block first rest _ =>
    let bound : Int := (rest.length + 1 : Nat)
    (courses first).map ((((0 : Nat) : Int), bound) :: ·) ++ coursesFrom bound 1 rest
  | .bare _ | .value _ => []

def coursesAll : List Tree → List Course
  | [] => [[]]
  | t :: ts => (courses t).flatMap fun c => (coursesAll ts).map (c ++ ·)

/-- The courses of a block that pick one of these options, the first of which has the number
`i`. -/
def coursesFrom (bound : Int) : (i : Nat) → List Tree → List Course
  | _, [] => []
  | i, t :: ts => (courses t).map (((i : Int), bound) :: ·) ++ coursesFrom bound (i + 1) ts

end

theorem mem_coursesAll_cons {t : Tree} {ts : List Tree} {c : Course} :
    c ∈ coursesAll (t :: ts) ↔ ∃ a ∈ courses t, ∃ b ∈ coursesAll ts, c = a ++ b := by
  simp only [coursesAll, List.mem_flatMap, List.mem_map, eq_comm]

theorem mem_coursesFrom {bound : Int} {i : Nat} {ts : List Tree} {c : Course} :
    c ∈ coursesFrom bound i ts ↔
      ∃ j t, ts[j]? = some t ∧ ∃ b ∈ courses t, c = (((i + j : Nat) : Int), bound) :: b := by
  induction ts generalizing i with
  | nil => simp [coursesFrom]
  | cons t ts ih =>
    rw [coursesFrom, List.mem_append, List.mem_map, ih]
    constructor
    · rintro (⟨b, hb, rfl⟩ | ⟨j, u, hu, b, hb, rfl⟩)
      · exact ⟨0, t, rfl, b, hb, rfl⟩
      · exact ⟨j + 1, u, hu, b, hb, by rw [Nat.add_assoc, Nat.add_comm 1 j]⟩
    · rintro ⟨j, u, hu, b, hb, rfl⟩
      cases j with
      | zero =>
        cases hu
        exact .inl ⟨b, hb, rfl⟩
      | succ j => exact .inr ⟨j, u, hu, b, hb, by rw [Nat.add_assoc, Nat.add_comm 1 j]⟩

theorem mem_courses_block {first : Tree} {rest : List Tree} {l : Location} {c : Course} :
    c ∈ courses (.block first rest l) ↔
      ∃ (j : Nat) (option : Tree), (first :: rest)[j]? = some option ∧
        ∃ b ∈ courses option, c = ((j : Int), ((first :: rest).length : Int)) :: b := by
  have hfrom : courses (.block first rest l) =
      coursesFrom ((first :: rest).length : Int) 0 (first :: rest) := rfl
  rw [hfrom, mem_coursesFrom]
  simp only [Nat.zero_add]

theorem inRange_of_mem_coursesAll {ts : List Tree}
    (h : ∀ t ∈ ts, ∀ c ∈ courses t, ∀ x ∈ c, InRange x.1 x.2) :
    ∀ c ∈ coursesAll ts, ∀ x ∈ c, InRange x.1 x.2 := by
  induction ts with
  | nil => simp [coursesAll]
  | cons t ts ih =>
    intro c hc x hx
    obtain ⟨a, ha, b, hb, rfl⟩ := mem_coursesAll_cons.1 hc
    rcases List.mem_append.1 hx with hx | hx
    · exact h t (by simp) a ha x hx
    · exact ih (fun u hu => h u (by simp [hu])) b hb x hx

/-- A course only picks numbers of options. -/
theorem inRange_of_mem_courses (t : Tree) : ∀ c ∈ courses t, ∀ x ∈ c, InRange x.1 x.2 := by
  induction t with
  | text content l => simp [courses]
  | pattern first rest l hf hr =>
    exact inRange_of_mem_coursesAll (List.forall_mem_cons.2 ⟨hf, hr⟩)
  | block first rest l hf hr =>
    intro c hc x hx
    obtain ⟨j, option, hj, b, hb, rfl⟩ := mem_courses_block.1 hc
    have hoption : ∀ u ∈ first :: rest, ∀ c ∈ courses u, ∀ x ∈ c, InRange x.1 x.2 :=
      List.forall_mem_cons.2 ⟨hf, hr⟩
    rcases List.mem_cons.1 hx with rfl | hx
    · have hlt := (List.getElem?_eq_some_iff.1 hj).1
      exact ⟨Int.natCast_nonneg j, Int.ofNat_lt.2 hlt⟩
    · exact hoption option (List.mem_of_getElem? hj) b hb x hx
  | bare l => simp [courses]
  | value v => simp [courses]

/-! ## Sources and courses -/

section Sources

variable {σ ε : Type} {draw : Source σ ε}

/-- Asked for the bounds of a course in turn, the source in the state `s` gives its picks, and is
in the state `s'` then. -/
inductive Answers (draw : Source σ ε) : σ → Course → σ → Prop where
  | nil {s : σ} : Answers draw s [] s
  | cons {s s₁ s' : σ} {pick bound : Int} {c : Course} :
      draw s bound = (.ok pick, s₁) → Answers draw s₁ c s' →
      Answers draw s ((pick, bound) :: c) s'

theorem answers_append_iff {s s' : σ} {a b : Course} :
    Answers draw s (a ++ b) s' ↔ ∃ s₁, Answers draw s a s₁ ∧ Answers draw s₁ b s' := by
  induction a generalizing s with
  | nil =>
    constructor
    · exact fun h => ⟨s, .nil, h⟩
    · rintro ⟨s₁, ⟨⟩, h⟩
      exact h
  | cons x a ih =>
    constructor
    · rintro (_ | ⟨hd, h⟩)
      obtain ⟨s₁, ha, hb⟩ := ih.1 h
      exact ⟨s₁, .cons hd ha, hb⟩
    · rintro ⟨s₁, _ | ⟨hd, ha⟩, hb⟩
      exact .cons hd (ih.2 ⟨s₁, ha, hb⟩)

/-- Asked for these bounds in turn, the source in the state `s` gives picks in range. -/
def Ready (draw : Source σ ε) : σ → List Int → Prop
  | _, [] => True
  | s, bound :: bounds =>
    ∃ pick s', draw s bound = (.ok pick, s') ∧ InRange pick bound ∧ Ready draw s' bounds

theorem Ready.left {s : σ} {xs ys : List Int} (h : Ready draw s (xs ++ ys)) : Ready draw s xs := by
  induction xs generalizing s with
  | nil => trivial
  | cons x xs ih =>
    obtain ⟨pick, s', hd, hp, h⟩ := h
    exact ⟨pick, s', hd, hp, ih h⟩

theorem Ready.right {s s' : σ} {c : Course} {ys : List Int}
    (h : Ready draw s (c.map Prod.snd ++ ys)) (hc : Answers draw s c s') : Ready draw s' ys := by
  induction hc with
  | nil => exact h
  | cons hd _ ih =>
    obtain ⟨pick, s₁, hd', -, h⟩ := h
    rw [hd] at hd'
    cases hd'
    exact ih h

theorem Fair.ready {s : σ} (h : Fair draw s) {bounds : List Int} (hb : ∀ b ∈ bounds, 1 ≤ b) :
    Ready draw s bounds := by
  induction bounds generalizing s with
  | nil => trivial
  | cons bound bounds ih =>
    obtain ⟨hbound, hb⟩ := List.forall_mem_cons.1 hb
    obtain ⟨pick, hd, hp⟩ := h s .refl bound hbound
    exact ⟨pick, _, Prod.ext hd rfl, hp, ih (h.step hbound) hb⟩

/-- A source that answers the course is asked by the tree for just its bounds. The text is the same
for all such sources. -/
def Decides (c : Course) (t : Tree) : Prop :=
  ∃ w, ∀ {σ ε : Type} (draw : Source σ ε) (s s' : σ), Answers draw s c s' →
    denote draw t s = ⟨.ok w, c.map Prod.snd, s'⟩

def DecidesAll (c : Course) (ts : List Tree) : Prop :=
  ∃ w, ∀ {σ ε : Type} (draw : Source σ ε) (s s' : σ), Answers draw s c s' →
    denoteAll draw ts s = ⟨.ok w, c.map Prod.snd, s'⟩

theorem decidesAll_of_course {ts : List Tree} (h : ∀ t ∈ ts, ∀ c ∈ courses t, Decides c t) :
    ∀ c ∈ coursesAll ts, DecidesAll c ts := by
  induction ts with
  | nil =>
    intro c hc
    obtain rfl := List.mem_singleton.1 hc
    refine ⟨"", fun draw s s' hs => ?_⟩
    cases hs
    rfl
  | cons t ts ih =>
    intro c hc
    obtain ⟨a, ha, b, hb, rfl⟩ := mem_coursesAll_cons.1 hc
    obtain ⟨v, hv⟩ := h t (by simp) a ha
    obtain ⟨w, hw⟩ := ih (fun u hu => h u (by simp [hu])) b hb
    refine ⟨v ++ w, fun draw s s' hs => ?_⟩
    obtain ⟨s₁, hsa, hsb⟩ := answers_append_iff.1 hs
    rw [denoteAll, hv draw s s₁ hsa, andThen_ok, hw draw s₁ s' hsb, List.map_append]
    rfl

theorem decides_of_course (t : Tree) : ∀ c ∈ courses t, Decides c t := by
  induction t with
  | text content l =>
    intro c hc
    obtain rfl := List.mem_singleton.1 hc
    refine ⟨content, fun draw s s' hs => ?_⟩
    cases hs
    rfl
  | pattern first rest l hf hr => exact decidesAll_of_course (List.forall_mem_cons.2 ⟨hf, hr⟩)
  | block first rest l hf hr =>
    intro c hc
    obtain ⟨j, option, hj, b, hb, rfl⟩ := mem_courses_block.1 hc
    have heach : ∀ u ∈ first :: rest, ∀ c ∈ courses u, Decides c u :=
      List.forall_mem_cons.2 ⟨hf, hr⟩
    obtain ⟨w, hw⟩ := heach option (List.mem_of_getElem? hj) b hb
    refine ⟨w, fun draw s s' hs => ?_⟩
    rcases hs with _ | ⟨hd, hs⟩
    rw [denote_block_of_draw hd (by rw [pick?_natCast, hj]), hw draw _ s' hs]
    rfl
  | bare l => simp [courses]
  | value v => simp [courses]

theorem exists_courseAll {ts : List Tree}
    (h : ∀ t ∈ ts, ∀ s : σ, Ready draw s (denote draw t s).bounds →
      ∃ c ∈ courses t, ∃ s', Answers draw s c s') :
    ∀ s : σ, Ready draw s (denoteAll draw ts s).bounds →
      ∃ c ∈ coursesAll ts, ∃ s', Answers draw s c s' := by
  induction ts with
  | nil => exact fun s _ => ⟨[], by simp [coursesAll], s, .nil⟩
  | cons t ts ih =>
    intro s hs
    -- whether or not the first tree comes to a text, the list begins with what it asks for
    have hfirst : Ready draw s (denote draw t s).bounds := by
      rw [denoteAll, Meaning.andThen] at hs
      split at hs
      · exact hs
      · exact hs.left
    obtain ⟨a, ha, s₁, hsa⟩ := h t (by simp) s hfirst
    obtain ⟨v, hv⟩ := decides_of_course t a ha
    rw [denoteAll, hv draw s s₁ hsa, andThen_ok] at hs
    obtain ⟨b, hb, s', hsb⟩ := ih (fun u hu => h u (by simp [hu])) s₁ (hs.right hsa)
    exact ⟨a ++ b, mem_coursesAll_cons.2 ⟨a, ha, b, hb, rfl⟩, s',
      answers_append_iff.2 ⟨s₁, hsa, hsb⟩⟩

theorem exists_getElem_of_inRange {α : Type} {xs : List α} {pick : Int}
    (h : InRange pick xs.length) : ∃ (j : Nat) (x : α), pick = j ∧ xs[j]? = some x := by
  obtain ⟨j, rfl⟩ := Int.eq_ofNat_of_zero_le h.1
  have hlt : j < xs.length := Int.ofNat_lt.1 h.2
  exact ⟨j, xs[j], rfl, List.getElem?_eq_getElem hlt⟩

/-- A source with picks in range for whatever a tree asks for takes one of the courses. -/
theorem exists_course (t : Tree) (ht : t.Proper) :
    ∀ s : σ, Ready draw s (denote draw t s).bounds →
      ∃ c ∈ courses t, ∃ s', Answers draw s c s' := by
  induction t with
  | text content l => exact fun s _ => ⟨[], by simp [courses], s, .nil⟩
  | pattern first rest l hf hr =>
    have heach : ∀ u ∈ first :: rest, ∀ s : σ, Ready draw s (denote draw u s).bounds →
        ∃ c ∈ courses u, ∃ s', Answers draw s c s' := by
      intro u hu
      rcases List.mem_cons.1 hu with rfl | hm
      · exact hf (ht.child hu)
      · exact hr u hm (ht.child hu)
    exact exists_courseAll heach
  | block first rest l hf hr =>
    intro s hs
    have hbound : Ready draw s [((first :: rest).length : Int)] := by
      rw [denote_block] at hs
      split at hs
      · exact hs
      · split at hs
        · exact hs
        · exact @Ready.left _ _ _ _ [_] _ hs
    obtain ⟨pick, s₁, hd, hpick, -⟩ := hbound
    obtain ⟨j, option, rfl, hj⟩ := exists_getElem_of_inRange hpick
    have hmem := List.mem_of_getElem? hj
    rw [denote_block_of_draw hd (by rw [pick?_natCast, hj])] at hs
    have hrest := hs.right (.cons hd .nil)
    have hoption : ∃ c ∈ courses option, ∃ s', Answers draw s₁ c s' := by
      rcases List.mem_cons.1 hmem with rfl | hm
      · exact hf (ht.child hmem) s₁ hrest
      · exact hr option hm (ht.child hmem) s₁ hrest
    obtain ⟨b, hb, s', hsb⟩ := hoption
    exact ⟨_, mem_courses_block.2 ⟨j, option, hj, b, hb, rfl⟩, s', .cons hd hsb⟩
  | bare l => exact absurd .self (ht.not_bare l)
  | value v => exact absurd .self (ht.valueless v)

end Sources

end Evaluation
end Spintax
