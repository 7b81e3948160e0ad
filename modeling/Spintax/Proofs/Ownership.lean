import Spintax.Proofs.Solo

/-!
# Spintax.Proofs.Ownership

Whose a chooser is. A generator that is started without a chooser gets a new one, which nothing else
in the session can come to draw from. So what is done with this generator comes to what it comes to
alone, whatever else is done between its uses.

* `InBounds`: stored choosers are in the session, so that a new one is nobody's yet.
* `Sole name g c`: the chooser of a generator is now `c`, and it is this generator's only. This is
  invariant as long as the generator is neither used nor replaced.
* `Moment.use?`: what is done at a moment with the chooser of a generator.
* `sole_of_start`, `sole_of_use`, `sole_of_other`: how it comes about, and what each moment does.
* `solo_of_start`: all that is done with a generator after it was started without a chooser.
-/

namespace Spintax.Session

open Procedure

theorem Names.forall_put {α : Type} {names : Names α} {name : String} {a : α}
    {P : String → α → Prop} (h : ∀ n b, names.get? n = some b → P n b) (ha : P name a) :
    ∀ n b, (names.put name a).get? n = some b → P n b := by
  intro n b hb
  by_cases hn : n = name
  · subst hn
    rw [Names.get?_put_self] at hb
    cases hb
    exact ha
  · rw [Names.get?_put_of_ne hn] at hb
    exact h n b hb

/-! ## Whose a chooser is -/

/-- Whatever chooser is stored, or used by a generator, is one of the session. -/
structure InBounds (s : State) : Prop where
  stored : ∀ name chooser, s.chooserNames.get? name = some chooser →
    ∀ i ∈ chooser, i < s.choosers.size
  used : ∀ name g, s.generators.get? name = some g → g.chooser < s.choosers.size

def Invariant.inBounds : Invariant where
  Holds := InBounds
  Free size chooser := chooser < size
  OpenChooser _ := True
  OpenGenerator _ := True
  OpenParser _ := True
  free_mono hle h := Nat.lt_of_lt_of_le h hle
  aside h _ _ _ _ := ⟨h.stored, h.used⟩
  add {s} h c := by
    have hsize : (s.choosers.push c).size = s.choosers.size + 1 := Array.size_push c
    refine ⟨⟨fun name chooser hname i hi => ?_, fun name g hname => ?_⟩, Nat.lt_succ_self _⟩
    · exact hsize ▸ Nat.lt_succ_of_lt (h.stored name chooser hname i hi)
    · exact hsize ▸ Nat.lt_succ_of_lt (h.used name g hname)
  draw {s i} h _ c := by
    have hsize : (s.choosers.setIfInBounds i c).size = s.choosers.size :=
      Array.size_setIfInBounds
    exact ⟨fun name chooser hname i hi => hsize ▸ h.stored name chooser hname i hi,
      fun name g hname => hsize ▸ h.used name g hname⟩
  putChooser h _ hfree := ⟨Names.forall_put h.stored hfree, h.used⟩
  findChooser h hname := h.stored _ _ hname _ rfl
  putGenerator h _ hfree := ⟨h.stored, Names.forall_put h.used hfree⟩
  findGenerator h _ hname := h.used _ _ hname
  putParser h _ _ := ⟨h.stored, h.used⟩

/-- The generator `g` has this name, its chooser is now `c`, and nothing else has this chooser. -/
structure Sole (name : String) (g : Generator) (c : Chooser) (s : State) : Prop where
  named : s.generators.get? name = some g
  chooser : s.choosers[g.chooser]? = some c
  stored : ∀ n chooser, s.chooserNames.get? n = some chooser → ∀ i ∈ chooser, i ≠ g.chooser
  used : ∀ n h, s.generators.get? n = some h → n ≠ name → h.chooser ≠ g.chooser

def Invariant.sole (name : String) (g : Generator) (c : Chooser) : Invariant where
  Holds := Sole name g c
  Free _ chooser := chooser ≠ g.chooser
  OpenChooser _ := True
  OpenGenerator n := n ≠ name
  OpenParser _ := True
  free_mono _ h := h
  aside h _ _ _ _ := ⟨h.named, h.chooser, h.stored, h.used⟩
  add {s} h d := by
    -- the number of a new chooser is above all that are taken, this one among them
    have hlt := (Array.getElem?_eq_some_iff.1 h.chooser).1
    have hchooser : (s.choosers.push d)[g.chooser]? = some c := by
      rw [Array.getElem?_push, if_neg (Nat.ne_of_lt hlt), h.chooser]
    exact ⟨⟨h.named, hchooser, h.stored, h.used⟩, Nat.ne_of_gt hlt⟩
  draw {s i} h hi d := by
    have hchooser : (s.choosers.setIfInBounds i d)[g.chooser]? = some c := by
      rw [Array.getElem?_setIfInBounds_ne hi, h.chooser]
    exact ⟨h.named, hchooser, h.stored, h.used⟩
  putChooser h _ hfree := ⟨h.named, h.chooser, Names.forall_put h.stored hfree, h.used⟩
  findChooser h hname := h.stored _ _ hname _ rfl
  putGenerator h hne hfree := ⟨by rw [Names.get?_put_of_ne hne.symm, h.named], h.chooser, h.stored,
    Names.forall_put h.used fun _ => hfree⟩
  findGenerator h hne hname := h.used _ _ hname hne
  putParser h _ _ := ⟨h.named, h.chooser, h.stored, h.used⟩

theorem Invariant.inBounds_ignoresConfig : Invariant.inBounds.IgnoresConfig :=
  fun h _ => ⟨h.stored, h.used⟩

theorem Invariant.permits_inBounds (r : Request) : Invariant.inBounds.Permits r := by
  unfold Invariant.Permits
  split <;> trivial

theorem Invariant.sole_ignoresConfig (name : String) (g : Generator) (c : Chooser) :
    (Invariant.sole name g c).IgnoresConfig :=
  fun h _ => ⟨h.named, h.chooser, h.stored, h.used⟩

theorem inBounds_initial (entropy : Nat → Twister) : InBounds (.initial entropy) :=
  ⟨nofun, nofun⟩

theorem Sole.did {α : Type} {name : String} {g : Generator} {c : Chooser} {s : State}
    {r : Except Failure α × Chooser} {p : Except Failure α × State} (h : Sole name g c s)
    (hdid : Did s g.chooser r p) : Sole name g r.2 p.2 := by
  have hlt := (Array.getElem?_eq_some_iff.1 h.chooser).1
  have hchooser : (s.choosers.setIfInBounds g.chooser r.2)[g.chooser]? = some r.2 :=
    Array.getElem?_setIfInBounds_self_of_lt hlt
  exact hdid.2.holds (Invariant.sole_ignoresConfig name g r.2)
    ⟨h.named, hchooser, h.stored, h.used⟩

/-! ## Generators -/

/-- The expression stands for no chooser: for the one that is used where none is given. -/
def ChooserExpr.IsNone (s : State) : ChooserExpr → Prop
  | .absent => True
  | .named name => s.chooserNames.get? name = some none
  | _ => False

/-- What is done at the moment with the chooser of a generator. What stands in the request is built
first; where that fails, nothing is done. -/
def Moment.use? (name : String) (m : Moment) : Option Use :=
  match m.request with
  | .making (.generate n e) =>
    if n = name then
      ((buildInput e).run.run m.before).1.toOption.map (.run m.before.config.maxDepth)
    else none
  | .making (.generateMany n es) =>
    if n = name then
      ((es.mapM buildInput).run.run m.before).1.toOption.map (.runMany m.before.config.maxDepth)
    else none
  | .making (.draw n stop) => if n = name then some (.draw stop) else none
  | _ => none

/-- A generator is stored under the name. -/
def Moment.StartsGenerator (name : String) (m : Moment) : Prop :=
  (∃ e file, m.request = .making (.start name e file)) ∧ m.result = .ok .done

section Generators

variable {name : String} {g : Generator} {c : Chooser} {m : Moment}

theorem run_buildChooser_of_isNone {s : State} {e : ChooserExpr} (h : e.IsNone s) :
    (buildChooser e).run.run s = (.ok none, s) := by
  cases e with
  | absent => rfl
  | picks ps => exact h.elim
  | seed n => exact h.elim
  | named n => exact run_find_of_some h

/-- A generator that is started without a chooser has a new one, with the seed that is set now. -/
theorem sole_of_start {e : ChooserExpr} {file : Option String} {n : Int}
    (hm : m.request = .making (.start name e file)) (he : e.IsNone m.before)
    (hseed : m.before.config.seed = some n) (h : InBounds m.before) :
    Sole name ⟨m.before.choosers.size, file⟩ (.seeded (.ofSeed n)) m.after := by
  obtain ⟨s, r⟩ := m
  obtain rfl : r = .making (.start name e file) := hm
  have hafter : Moment.after ⟨s, .making (.start name e file)⟩ =
      { s with
        choosers := s.choosers.push (.ofConfig s.config (s.entropy s.choosers.size))
        generators := s.generators.put name ⟨s.choosers.size, file⟩ } := by
    rw [Moment.after, Request.act, MakingCommand.act,
      run_bind_of_ok (run_buildChooser_of_isNone he)]
    rfl
  rw [hafter, Chooser.ofConfig_of_seed hseed]
  refine ⟨Names.get?_put_self _ _ _, Array.getElem?_push_size, fun n chooser hn i hi => ?_, ?_⟩
  · exact Nat.ne_of_lt (h.stored n chooser hn i hi)
  · intro k g' hg hk
    rw [Names.get?_put_of_ne hk] at hg
    exact Nat.ne_of_lt (h.used k g' hg)

/-- Building, which keeps all invariants, touches neither the generator nor the configuration. -/
theorem Sole.built {α : Type} {p : Procedure α} (hp : ∀ V : Invariant, V.Keeps 0 p) {s : State}
    (h : Sole name g c s) :
    Sole name g c (p.run.run s).2 ∧ (p.run.run s).2.config = s.config :=
  ⟨(hp (.sole name g c) s h (Nat.zero_le _)).1, Invariant.keepsConfig (fun _ => hp _) s⟩

theorem run_eq_of_toOption {α : Type} {p : Procedure α} {a : α} {s : State}
    (h : (p.run.run s).1.toOption = some a) : p.run.run s = (.ok a, (p.run.run s).2) := by
  rcases hp : p.run.run s with ⟨e | b, s'⟩
  · rw [hp] at h
    cases h
  · rw [hp] at h
    cases h
    rfl

/-- What is done with the generator comes to what it comes to with its chooser alone. -/
theorem sole_of_use {u : Use} (hu : m.use? name = some u) (h : Sole name g c m.before) :
    m.result = (u.solo g.file c).1 ∧ Sole name g (u.solo g.file c).2 m.after := by
  rw [Moment.result, Moment.after]
  unfold Moment.use? at hu
  split at hu
  case h_1 _ n e hm =>
    obtain ⟨rfl, hmap⟩ := Option.ite_none_right_eq_some.1 hu
    obtain ⟨input, hinput, rfl⟩ := Option.map_eq_some_iff.1 hmap
    obtain ⟨hsole, hconfig⟩ := h.built fun V => Invariant.Keeps.buildInput e
    have hdid := did_generate h.named (run_eq_of_toOption hinput) hsole.chooser
    rw [hconfig, ← hm] at hdid
    exact ⟨hdid.1, hsole.did hdid⟩
  case h_2 _ n es hm =>
    obtain ⟨rfl, hmap⟩ := Option.ite_none_right_eq_some.1 hu
    obtain ⟨inputs, hinputs, rfl⟩ := Option.map_eq_some_iff.1 hmap
    obtain ⟨hsole, hconfig⟩ := h.built fun V => Invariant.Keeps.mapM .buildInput es
    have hdid := did_generateMany h.named (run_eq_of_toOption hinputs) hsole.chooser
    rw [hconfig, ← hm] at hdid
    exact ⟨hdid.1, hsole.did hdid⟩
  case h_3 _ n stop hm =>
    obtain ⟨rfl, hstop⟩ := Option.ite_none_right_eq_some.1 hu
    cases hstop
    have hdid := did_draw stop h.named h.chooser
    rw [← hm] at hdid
    exact ⟨hdid.1, h.did hdid⟩
  case h_4 => cases hu

/-- Where building fails, this is all that is done. -/
theorem sole_of_building_failed {α : Type} {p : Procedure α}
    {k : Generator → α → Procedure Answer}
    (hact : m.request.act = find State.generators name >>= fun g => p >>= k g)
    (hp : ∀ V : Invariant, V.Keeps 0 p) (hnone : (p.run.run m.before).1.toOption = none)
    (h : Sole name g c m.before) : Sole name g c m.after := by
  have hbuilt := (h.built hp).1
  rcases hrun : p.run.run m.before with ⟨e | a, s⟩
  · rw [hrun] at hbuilt
    rw [Moment.after, hact, run_bind_of_ok (run_find_of_some h.named), run_bind_of_error hrun]
    exact hbuilt
  · rw [hrun] at hnone
    cases hnone

/-- A generator that is not stored is not stored because there is no chooser for it. -/
theorem sole_of_start_failed {e : ChooserExpr} {file : Option String}
    (hm : m.request = .making (.start name e file)) (hresult : m.result ≠ .ok .done)
    (h : Sole name g c m.before) : Sole name g c m.after := by
  rw [Moment.result, hm, Request.act, MakingCommand.act] at hresult
  rw [Moment.after, hm, Request.act, MakingCommand.act]
  rcases he : (buildChooser e).run.run m.before with ⟨f | chooser, s⟩
  · have hbuild := (Invariant.Gives.buildChooser e).1 m.before
      (show (Invariant.sole name g c).Holds m.before from h) (Nat.zero_le _)
    rw [he] at hbuild
    rw [run_bind_of_error he]
    exact hbuild.1
  · rw [run_bind_of_ok he] at hresult
    cases chooser <;> exact absurd rfl hresult

theorem sole_of_other (huse : m.use? name = none) (hstart : ¬ m.StartsGenerator name)
    (hsingle : m.request.IsSingle) (h : Sole name g c m.before) : Sole name g c m.after := by
  by_cases hpermits : (Invariant.sole name g c).Permits m.request
  · exact Moment.holds_after hsingle (Invariant.sole_ignoresConfig name g c) hpermits h
  -- what is not permitted goes by this name: a generator that was not stored, or a failed use
  unfold Invariant.Permits at hpermits
  split at hpermits
  case h_4 _ n e file hm =>
    obtain rfl : n = name := Decidable.not_not.1 hpermits
    exact sole_of_start_failed hm (fun hdone => hstart ⟨⟨e, file, hm⟩, hdone⟩) h
  case h_5 _ n e hm =>
    obtain rfl : n = name := Decidable.not_not.1 hpermits
    rw [Moment.use?, hm] at huse
    simp only [if_true, Option.map_eq_none_iff] at huse
    exact sole_of_building_failed (by rw [hm]; rfl) (fun V => .buildInput e) huse h
  case h_6 _ n es hm =>
    obtain rfl : n = name := Decidable.not_not.1 hpermits
    rw [Moment.use?, hm] at huse
    simp only [if_true, Option.map_eq_none_iff] at huse
    exact sole_of_building_failed (by rw [hm]; rfl) (fun V => .mapM .buildInput es) huse h
  case h_7 _ n stop hm =>
    obtain rfl : n = name := Decidable.not_not.1 hpermits
    rw [Moment.use?, hm] at huse
    simp at huse
  all_goals exact absurd trivial hpermits

theorem Sole.performed {s s' : State} {ms : List Moment} (h : Sole name g c s)
    (hms : Linked s ms s') (hstart : ∀ m ∈ ms, ¬ m.StartsGenerator name) :
    resultsOf (Moment.use? name) ms =
      Session.performed (Use.solo g.file) c (ms.filterMap (Moment.use? name)) :=
  hms.performed (Invariant.sole_ignoresConfig name g) (fun _ _ _ _ hu h => sole_of_use hu h)
    (fun _ m hm huse hsingle h => sole_of_other huse (hstart m hm) hsingle h) h

/-- After a generator is started without a chooser, all that is done with it until another one
takes its name comes to what it comes to with a new seeded chooser and with nothing in between. -/
theorem solo_of_start {s s' : State} {own rest : List Moment} {e : ChooserExpr}
    {file : Option String} {n : Int} (hlinked : Linked s (m :: (own ++ rest)) s')
    (hs : InBounds s) (hm : m.request = .making (.start name e file)) (he : e.IsNone m.before)
    (hseed : m.before.config.seed = some n) (hown : ∀ a ∈ own, ¬ a.StartsGenerator name) :
    resultsOf (Moment.use? name) own =
      performed (Use.solo file) (.seeded (.ofSeed n)) (own.filterMap (Moment.use? name)) := by
  obtain ⟨hsame, hafter⟩ := hlinked.uncons
  obtain ⟨s₁, hrow, -⟩ := hafter.split
  have hbounds : InBounds m.before := hsame.holds Invariant.inBounds_ignoresConfig hs
  exact (sole_of_start hm he hseed hbounds).performed hrow hown

end Generators

end Spintax.Session
