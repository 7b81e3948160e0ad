import Spintax.Proofs.Ownership

/-!
# Spintax.Proofs.Separation

Runs do not interfere. A session is a row of moments; what is done at some of them with a generator
or a parser comes to what it would come to alone, whatever the moments in between are about. What a
generator, a parser or a run takes from the configuration, it takes at a certain moment.

* `Moment.resumes?`, `resumeSolo`: moments at which a parser is resumed, and what comes of it.
* `resumed_of_start`: what comes of a parser after it was started.
* `act_run_of_isNone`, `act_runTree_of_isNone`: runs that are given no chooser.
* `runs_apart`: generators, parsers and runs in every session.
-/

namespace Spintax.Session

open Procedure

/-! ## Parsers -/

/-- The parser under the name is `p`. -/
def Invariant.parserIs (name : String) (p : Parser) : Invariant where
  Holds s := s.parsers.get? name = some p
  Free _ _ := True
  OpenChooser _ := True
  OpenGenerator _ := True
  OpenParser n := n ≠ name
  free_mono _ h := h
  aside h _ _ _ _ := h
  add h _ := ⟨h, trivial⟩
  draw h _ _ := h
  putChooser h _ _ := h
  findChooser _ _ := trivial
  putGenerator h _ _ := h
  findGenerator _ _ _ := trivial
  putParser h hne _ := (Names.get?_put_of_ne hne.symm _ _).trans h

theorem Invariant.parserIs_ignoresConfig (name : String) (p : Parser) :
    (Invariant.parserIs name p).IgnoresConfig :=
  fun h _ => h

/-- Whether the parser is resumed at the moment. -/
def Moment.resumes? (name : String) (m : Moment) : Option Unit :=
  match m.request with
  | .parsing (.resume n _) => if n = name then some () else none
  | _ => none

/-- A parser is stored under the name. -/
def Moment.StartsParser (name : String) (m : Moment) : Prop :=
  (∃ e file, m.request = .parsing (.start name e file)) ∧ m.result = .ok .done

/-- What comes of resuming a parser, and the parser afterwards. -/
def resumeSolo (p : Parser) (_ : Unit) : Except Failure Answer × Parser :=
  ((p.report.1.value.mapError .diagnostic).map (.tree · none), p.report.2)

section Parsers

variable {name : String} {p : Parser} {m : Moment}

theorem run_heed {α : Type} (r : Recorded (Except Diagnostic α)) (s : State) :
    (heed r).run.run s =
      (r.value.mapError .diagnostic, { s with events := s.events ++ r.events }) := by
  obtain ⟨value, events⟩ := r
  cases value with
  | ok a => rfl
  | error d => rfl

theorem result_keepTree (store : Option String) (r : Recorded (Except Diagnostic Tree))
    (s : State) :
    ((do keepTree store (← heed r) : Procedure Answer).run.run s).1 =
      (r.value.mapError .diagnostic).map (.tree · none) := by
  have hheed := run_heed r s
  cases hvalue : r.value with
  | ok t =>
    rw [hvalue] at hheed
    rw [run_bind_of_ok hheed]
    cases store <;> rfl
  | error d =>
    rw [hvalue] at hheed
    rw [run_bind_of_error hheed]
    rfl

/-- Resuming the parser comes to what the parser itself comes to. -/
theorem parserIs_of_resume (hresume : m.resumes? name = some ())
    (h : m.before.parsers.get? name = some p) :
    m.result = (resumeSolo p ()).1 ∧ m.after.parsers.get? name = some (resumeSolo p ()).2 := by
  unfold Moment.resumes? at hresume
  split at hresume
  case h_2 => cases hresume
  case h_1 _ n store hm =>
    obtain ⟨rfl, -⟩ := Option.ite_none_right_eq_some.1 hresume
    have hrun : m.request.act.run.run m.before =
        (do keepTree store (← heed p.report.1) : Procedure Answer).run.run
          { m.before with parsers := m.before.parsers.put n p.report.2 } := by
      rw [hm, Request.act, ParsingCommand.act, run_bind_of_ok (run_find_of_some h)]
      rfl
    have hkeeps : (Invariant.parserIs n p.report.2).Keeps 0
        (do keepTree store (← heed p.report.1) : Procedure Answer) :=
      .bind (.heed _) fun _ => .keepTree _ _
    have hafter := hkeeps { m.before with parsers := m.before.parsers.put n p.report.2 }
      (Names.get?_put_self _ _ _) (Nat.zero_le _)
    rw [Moment.result, Moment.after, hrun]
    exact ⟨result_keepTree store _ _, hafter.1⟩

/-- A parser that is not stored is not stored because there are no tokens for it. -/
theorem parserIs_of_start_failed {e : TokensExpr} {file : Option String}
    (hm : m.request = .parsing (.start name e file)) (hresult : m.result ≠ .ok .done)
    (h : m.before.parsers.get? name = some p) : m.after.parsers.get? name = some p := by
  rw [Moment.result, hm, Request.act, ParsingCommand.act] at hresult
  rw [Moment.after, hm, Request.act, ParsingCommand.act]
  have hkeeps : (Invariant.parserIs name p).Keeps 0 (buildParser e file) := .buildParser e file
  rcases hbuild : (buildParser e file).run.run m.before with ⟨f | q, s⟩
  · have hafter := (hkeeps m.before h (Nat.zero_le _)).1
    rw [hbuild] at hafter
    rw [run_bind_of_error hbuild]
    exact hafter
  · rw [run_bind_of_ok hbuild] at hresult
    exact absurd rfl hresult

theorem parserIs_of_other (hresume : m.resumes? name = none) (hstart : ¬ m.StartsParser name)
    (hsingle : m.request.IsSingle) (h : m.before.parsers.get? name = some p) :
    m.after.parsers.get? name = some p := by
  by_cases hpermits : (Invariant.parserIs name p).Permits m.request
  · exact Moment.holds_after hsingle (Invariant.parserIs_ignoresConfig name p) hpermits h
  unfold Invariant.Permits at hpermits
  split at hpermits
  case h_1 _ n e file hm =>
    obtain rfl : n = name := Decidable.not_not.1 hpermits
    exact parserIs_of_start_failed hm (fun hdone => hstart ⟨⟨e, file, hm⟩, hdone⟩) h
  case h_2 _ n store hm =>
    obtain rfl : n = name := Decidable.not_not.1 hpermits
    rw [Moment.resumes?, hm] at hresume
    simp at hresume
  all_goals exact absurd trivial hpermits

theorem performed_resumes {s s' : State} {ms : List Moment} (h : s.parsers.get? name = some p)
    (hms : Linked s ms s') (hstart : ∀ m ∈ ms, ¬ m.StartsParser name) :
    resultsOf (Moment.resumes? name) ms =
      performed resumeSolo p (ms.filterMap (Moment.resumes? name)) :=
  hms.performed (Invariant.parserIs_ignoresConfig name)
    (fun _ _ _ _ hu h => parserIs_of_resume hu h)
    (fun _ m hm huse hsingle h => parserIs_of_other huse (hstart m hm) hsingle h) h

/-- A new parser has the limit on nesting that is set now. -/
theorem eq_of_buildParser {e : TokensExpr} {file : Option String} {s : State}
    (h : ((buildParser e file).run.run s).1 = .ok p) :
    p = { tokens := p.tokens, file := file, limit := s.config.maxDepth } := by
  cases e with
  | list ts =>
    cases h
    rfl
  | source text textFile =>
    have hheed := run_heed (Template.tokens textFile text) s
    rw [buildParser] at h
    cases hvalue : (Template.tokens textFile text).value with
    | ok ts =>
      rw [hvalue] at hheed
      rw [run_bind_of_ok hheed] at h
      cases h
      rfl
    | error d =>
      rw [hvalue] at hheed
      rw [run_bind_of_error hheed] at h
      cases h

/-- After a parser is started, all that comes of resuming it until another one takes its name is
what comes of the same parser, with the limit of then, and with nothing in between. -/
theorem resumed_of_start {s s' : State} {own rest : List Moment} {e : TokensExpr}
    {file : Option String} (hlinked : Linked s (m :: (own ++ rest)) s')
    (hm : m.request = .parsing (.start name e file))
    (hp : ((buildParser e file).run.run m.before).1 = .ok p)
    (hown : ∀ a ∈ own, ¬ a.StartsParser name) :
    p = { tokens := p.tokens, file := file, limit := m.before.config.maxDepth } ∧
      resultsOf (Moment.resumes? name) own =
        performed resumeSolo p (own.filterMap (Moment.resumes? name)) := by
  obtain ⟨-, hafter⟩ := hlinked.uncons
  obtain ⟨s₁, hrow, -⟩ := hafter.split
  have hstored : m.after.parsers.get? name = some p := by
    rcases hbuild : (buildParser e file).run.run m.before with ⟨f | q, s⟩
    · rw [hbuild] at hp
      cases hp
    · rw [hbuild] at hp
      cases hp
      rw [Moment.after, hm, Request.act, ParsingCommand.act, run_bind_of_ok hbuild]
      exact Names.get?_put_self _ _ _
  exact ⟨eq_of_buildParser hp, performed_resumes hstored hrow hown⟩

end Parsers

/-! ## Runs that are given no chooser -/

section Fresh

variable {s s₁ : State} {e : ChooserExpr} {n : Int} {α : Type}

/-- That the expression stands for no chooser does not change by anything but storing one under
its name. -/
def Invariant.isNone (e : ChooserExpr) : Invariant where
  Holds s := e.IsNone s
  Free _ _ := True
  OpenChooser n := e ≠ .named n
  OpenGenerator _ := True
  OpenParser _ := True
  free_mono _ h := h
  aside {s} h _ _ _ _ := by cases e <;> exact h
  add {s} h _ := ⟨by cases e <;> exact h, trivial⟩
  draw h _ _ := by cases e <;> exact h
  putChooser {s n c} h hne _ := by
    cases e with
    | named name => exact (Names.get?_put_of_ne (fun hn => hne (congrArg _ hn)) _ _).trans h
    | _ => exact h
  findChooser _ _ := trivial
  putGenerator h _ _ := by cases e <;> exact h
  findGenerator _ _ _ := trivial
  putParser h _ _ := by cases e <;> exact h

/-- The session with one more chooser, a seeded one. -/
def State.withSeeded (s : State) (n : Int) : State :=
  { s with choosers := s.choosers.push (.seeded (.ofSeed n)) }

theorem getElem?_withSeeded (s : State) (n : Int) :
    (s.withSeeded n).choosers[s.choosers.size]? = some (.seeded (.ofSeed n)) :=
  Array.getElem?_push_size

theorem chosen_of_seed (k : Nat → Procedure α) :
    (buildChooser (.seed n) >>= fun c => orDefault c >>= k).run.run s =
      (k s.choosers.size).run.run (s.withSeeded n) :=
  rfl

theorem chosen_of_isNone (he : e.IsNone s) (hseed : s.config.seed = some n)
    (k : Nat → Procedure α) :
    (buildChooser e >>= fun c => orDefault c >>= k).run.run s =
      (k s.choosers.size).run.run (s.withSeeded n) := by
  rw [run_bind_of_ok (run_buildChooser_of_isNone he), State.withSeeded,
    ← Chooser.ofConfig_of_seed hseed (s.entropy s.choosers.size)]
  rfl

/-- Building, which keeps all invariants, does not store choosers. -/
theorem isNone_built {p : Procedure α} (hp : ∀ V : Invariant, V.Keeps 0 p) (he : e.IsNone s) :
    e.IsNone (p.run.run s).2 :=
  (hp (.isNone e) s he (Nat.zero_le _)).1

/-- A run that is given no chooser is one that is given a new chooser with the seed set now. -/
theorem act_run_of_isNone (he : e.IsNone s) (hseed : s.config.seed = some n) (input : InputExpr)
    (file : Option String) :
    (Request.making (.run input e file)).act.run.run s =
      (Request.making (.run input (.seed n) file)).act.run.run s := by
  have he' := isNone_built (fun V => Invariant.Keeps.buildInput input) he
  have hconfig := Invariant.keepsConfig (fun _ => .buildInput input) s
  rw [Request.act, Request.act, MakingCommand.act, MakingCommand.act]
  rcases hinput : (buildInput input).run.run s with ⟨f | i, s₁⟩
  · rw [run_bind_of_error hinput, run_bind_of_error hinput]
  · rw [hinput] at he' hconfig
    rw [run_bind_of_ok hinput, run_bind_of_ok hinput,
      chosen_of_isNone he' (hconfig ▸ hseed), chosen_of_seed]

theorem act_runTree_of_isNone (he : e.IsNone s) (hseed : s.config.seed = some n)
    (tree : TreeExpr) :
    (Request.making (.runTree tree e)).act.run.run s =
      (Request.making (.runTree tree (.seed n))).act.run.run s := by
  have he' := isNone_built (fun V => Invariant.Keeps.build tree) he
  have hconfig := Invariant.keepsConfig (fun _ => .build tree) s
  rw [Request.act, Request.act, MakingCommand.act, MakingCommand.act]
  rcases htree : (build tree).run.run s with ⟨f | t, s₁⟩
  · rw [run_bind_of_error htree, run_bind_of_error htree]
  · rw [htree] at he' hconfig
    have hchosen (k : Nat → Procedure Answer) :=
      chosen_of_isNone he' (hconfig ▸ hseed) k
    rw [run_bind_of_ok htree, run_bind_of_ok htree]
    -- the tree is looked at before any chooser is
    cases t with
    | value v => rfl
    | _ => rw [hchosen, chosen_of_seed]

/-- The result is what a new seeded chooser with nothing else to do gives. -/
theorem result_run_of_isNone (he : e.IsNone s) (hseed : s.config.seed = some n)
    {input : InputExpr} {i : Generation.Input}
    (hinput : ((buildInput input).run.run s).1 = .ok i) (file : Option String) :
    ((Request.making (.run input e file)).act.run.run s).1 =
      ((Use.run s.config.maxDepth i).solo file (.seeded (.ofSeed n))).1 := by
  have hconfig := Invariant.keepsConfig (fun _ => .buildInput input) s
  rw [act_run_of_isNone he hseed, Request.act, MakingCommand.act]
  rcases hbuild : (buildInput input).run.run s with ⟨f | j, s₁⟩
  · rw [hbuild] at hinput
    cases hinput
  · rw [hbuild] at hinput hconfig
    cases hinput
    have hlimit : (s₁.withSeeded n).config = s.config := hconfig
    rw [run_bind_of_ok hbuild, chosen_of_seed, ← hlimit]
    exact (did_run file i (getElem?_withSeeded s₁ n)).1

theorem result_runTree_of_isNone (he : e.IsNone s) (hseed : s.config.seed = some n)
    {tree : TreeExpr} {t : Tree} (htree : ((build tree).run.run s).1 = .ok t)
    (ht : ∀ v, t ≠ .value v) (limit : Nat) (file : Option String) :
    ((Request.making (.runTree tree e)).act.run.run s).1 =
      ((Use.run limit (.tree t)).solo file (.seeded (.ofSeed n))).1 := by
  rw [act_runTree_of_isNone he hseed, Request.act, MakingCommand.act]
  rcases hbuild : (build tree).run.run s with ⟨f | u, s₁⟩
  · rw [hbuild] at htree
    cases htree
  · rw [hbuild] at htree
    cases htree
    have hdid := (did_evaluateWith ht limit file (getElem?_withSeeded s₁ n)).1
    rw [run_bind_of_ok hbuild, ← hdid]
    cases t with
    | value v => exact absurd rfl (ht v)
    | _ => rw [chosen_of_seed]

end Fresh

/-! ## Every session -/

/-- Runs do not interfere, and take what they need of the configuration at one moment. The replies
to a session tell the results of its moments. In whatever state, a run that is given no chooser is
one that is given a new chooser with the seed that is set, and its result is the one of that run
alone. All that is done with a generator that was started without a chooser comes to what it comes
to with a chooser of the seed of then and nothing in between, where templates have the limit of
the moment of their run. All that comes of resuming a parser is what comes of it with the limit of
when it was started. -/
theorem runs_apart (steps : List Request) (entropy : Nat → Twister) :
    (∃ replies, (answer (.session steps) entropy).result = .ok (.steps replies none) ∧
      Request.resultsAll steps replies =
        (Request.momentsAll steps (.initial entropy)).map Moment.result) ∧
    (∀ (s : State) (n : Int) (e : ChooserExpr), s.config.seed = some n → e.IsNone s →
      (∀ input file, (Request.making (.run input e file)).act.run.run s =
          (Request.making (.run input (.seed n) file)).act.run.run s ∧
        ∀ i, ((buildInput input).run.run s).1 = .ok i →
          ((Request.making (.run input e file)).act.run.run s).1 =
            ((Use.run s.config.maxDepth i).solo file (.seeded (.ofSeed n))).1) ∧
      ∀ tree, (Request.making (.runTree tree e)).act.run.run s =
          (Request.making (.runTree tree (.seed n))).act.run.run s ∧
        ∀ t, ((build tree).run.run s).1 = .ok t → (∀ v, t ≠ .value v) →
          ((Request.making (.runTree tree e)).act.run.run s).1 =
            ((Use.run s.config.maxDepth (.tree t)).solo none (.seeded (.ofSeed n))).1) ∧
    ∀ before m own rest,
      Request.momentsAll steps (.initial entropy) = before ++ m :: (own ++ rest) →
      ∀ name file,
      (∀ e n, m.request = .making (.start name e file) → e.IsNone m.before →
        m.before.config.seed = some n → (∀ a ∈ own, ¬ a.StartsGenerator name) →
        resultsOf (Moment.use? name) own =
          performed (Use.solo file) (.seeded (.ofSeed n)) (own.filterMap (Moment.use? name))) ∧
      ∀ e p, m.request = .parsing (.start name e file) →
        ((buildParser e file).run.run m.before).1 = .ok p →
        (∀ a ∈ own, ¬ a.StartsParser name) →
        p = { tokens := p.tokens, file := file, limit := m.before.config.maxDepth } ∧
        resultsOf (Moment.resumes? name) own =
          performed resumeSolo p (own.filterMap (Moment.resumes? name)) := by
  refine ⟨⟨_, congrArg Prod.fst act_session, resultsAll_eq steps (.initial entropy)⟩,
    fun s n e hseed he => ⟨?_, ?_⟩, fun before m own rest hrow name file => ?_⟩
  · exact fun input file => ⟨act_run_of_isNone he hseed input file,
      fun i hi => result_run_of_isNone he hseed hi file⟩
  · exact fun tree => ⟨act_runTree_of_isNone he hseed tree,
      fun t htree ht => result_runTree_of_isNone he hseed htree ht _ none⟩
  · have hlinked := linked_momentsAll steps (.initial entropy)
    rw [hrow] at hlinked
    obtain ⟨s, hbefore, hlinked⟩ := hlinked.split
    have hbounds : InBounds s := hbefore.keeps Invariant.inBounds_ignoresConfig
      (fun a _ => Invariant.permits_inBounds a.request) (inBounds_initial entropy)
    exact ⟨fun e n hm he hseed hown => solo_of_start hlinked hbounds hm he hseed hown,
      fun e p hm hp hown => resumed_of_start hlinked hm hp hown⟩

/-- Another generator and another limit come between a generator, a parser and their uses. -/
theorem runs_apart_interleaved :
    let tokens : List Token := [⟨.text, "x", .unknown⟩]
    let steps : List Request := [.settings (.change { seed := some 7 }),
      .making (.start "a" .absent none), .parsing (.start "p" (.list tokens) none),
      .settings (.change { maxDepth := 1, seed := some 9 }),
      .making (.generate "a" (.source "x")), .making (.start "b" .absent none),
      .making (.draw "b" 6), .parsing (.resume "p" none), .making (.draw "a" 6)]
    let entropy : Nat → Twister := fun n => .ofSeed n
    let row := Request.momentsAll steps (.initial entropy)
    resultsOf (Moment.use? "a") (row.drop 2) =
        performed (Use.solo none) (.seeded (.ofSeed 7)) [.run 1 (.source "x"), .draw 6] ∧
      resultsOf (Moment.resumes? "p") (row.drop 3) =
        performed resumeSolo { tokens := tokens, file := none, limit := 64 } [()] := by
  intro tokens steps entropy row
  obtain ⟨-, -, hrow⟩ := runs_apart steps entropy
  have hrequests : ∀ i, ∀ m ∈ row.drop i, m.request ∈ steps.drop i := by
    intro i m hm
    have hmap : row.map Moment.request = steps := rfl
    rw [← hmap, ← List.map_drop]
    exact List.mem_map_of_mem hm
  constructor
  · have hsplit : row = row.take 1 ++
        ⟨((reply (Request.settings (.change { seed := some 7 })).act).run
            (.initial entropy)).2,
          .making (.start "a" .absent none)⟩ :: (row.drop 2 ++ []) := rfl
    have hown : ∀ m ∈ row.drop 2, ¬ m.StartsGenerator "a" := by
      rintro m hm ⟨⟨e, file, h⟩, -⟩
      have hmem := hrequests 2 m hm
      rw [h] at hmem
      simp [steps] at hmem
    exact (hrow _ _ _ _ hsplit "a" none).1 .absent 7 rfl trivial rfl hown
  · have hsplit : row = row.take 2 ++
        ⟨((Request.replies (steps.take 2)).run (.initial entropy)).2,
          .parsing (.start "p" (.list tokens) none)⟩ :: (row.drop 3 ++ []) := rfl
    have hown : ∀ m ∈ row.drop 3, ¬ m.StartsParser "p" := by
      rintro m hm ⟨⟨e, file, h⟩, -⟩
      have hmem := hrequests 3 m hm
      rw [h] at hmem
      simp [steps] at hmem
    exact ((hrow _ _ _ _ hsplit "p" none).2 (.list tokens) _ rfl rfl hown).2

end Spintax.Session
