import Spintax.Proofs.Moments

/-!
# Spintax.Proofs.Solo

Runs and draws with a chooser that nothing else draws from, and the same in a session, where the
chooser is one of many and what is asked of scripted ones is taken down.

* `Use`, `Use.solo`: runs and draws, and what comes of them with a chooser of their own.
* `Source.Tracks`: two sources that give the same picks in corresponding states.
* `Generation.run_tracks`, `Generation.runMany_tracks`: runs with such sources come to the same.
* `Use.Done`: in a session, a use has come to what it comes to alone, and only its chooser has
  moved on.
* `done_generate`, `done_generateMany`, `done_draw`: so it is for the uses of a generator.
-/

namespace Spintax

/-! ## Sources that give the same picks -/

/-- From corresponding states, the other source gives the same picks. -/
def Source.Tracks {σ τ ε : Type} (draw : Source σ ε) (other : Source τ ε) (φ : σ → τ) : Prop :=
  ∀ s bound, other (φ s) bound = ((draw s bound).1, φ (draw s bound).2)

section Tracking

variable {σ τ ε α : Type} {draw : Source σ ε} {other : Source τ ε} {φ : σ → τ}

theorem Evaluation.evaluateAll_tracks (h : draw.Tracks other φ) (waiting : List Tree) (s : σ)
    (made : String) :
    evaluateAll other waiting (φ s) made =
      ((evaluateAll draw waiting s made).1, φ (evaluateAll draw waiting s made).2) := by
  fun_induction evaluateAll draw waiting s made with
  | case1 => rw [evaluateAll]
  | case2 content l waiting s made ih => rwa [evaluateAll]
  | case3 first rest l waiting s made ih => rwa [evaluateAll]
  | case4 first rest l waiting s made e s' hd => rw [evaluateAll, h s, hd]
  | case5 first rest l waiting s made pick s' hd hp =>
    rw [evaluateAll, h s, hd]
    simp only
    split
    · rfl
    · rename_i option hoption
      exact absurd (hp.symm.trans hoption) nofun
  | case6 first rest l waiting s made pick s' hd option hp ih =>
    rw [evaluateAll, h s, hd]
    simp only
    split
    · rename_i hnone
      exact absurd (hp.symm.trans hnone) nofun
    · rename_i option' hoption
      cases hp.symm.trans hoption
      exact ih
  | case7 l waiting s made => rw [evaluateAll]
  | case8 v waiting s made => rw [evaluateAll]

theorem Evaluation.evaluate_tracks (h : draw.Tracks other φ) (t : Tree) (s : σ) :
    evaluate other t (φ s) = ((evaluate draw t s).1, φ (evaluate draw t s).2) :=
  evaluateAll_tracks h [t] s ""

namespace Generation

/-- The same with the corresponding source. -/
def Outcome.map (φ : σ → τ) (o : Outcome σ ε α) : Outcome τ ε α :=
  ⟨o.result, φ o.source, o.events⟩

theorem run_tracks (h : draw.Tracks other φ) (limit : Nat) (file : Option String) (input : Input)
    (s : σ) : run other limit file input (φ s) = (run draw limit file input s).map φ := by
  rw [run, run]
  cases (input.toTree limit file : Recorded (Except (Fault ε) Tree)).value with
  | error f => rfl
  | ok t =>
    simp only [Evaluation.evaluate_tracks h]
    rfl

theorem runMany_tracks (h : draw.Tracks other φ) (limit : Nat) (file : Option String)
    (inputs : List Input) (s : σ) :
    runMany other limit file inputs (φ s) = (runMany draw limit file inputs s).map φ := by
  induction inputs generalizing s with
  | nil => rfl
  | cons input inputs ih =>
    rw [runMany, runMany, run_tracks h]
    simp only [Outcome.map]
    cases (run draw limit file input s).result with
    | error f => rfl
    | ok text => simp only [ih, Outcome.map]

end Generation

end Tracking

namespace Session

/-- What a session draws is what its choosers give. -/
theorem tracks_heard : Source.Tracks Heard.draw Chooser.draw Prod.fst :=
  fun _ _ => rfl

/-! ## Uses of a chooser -/

/-- Something that is done with a chooser. Runs come with the limit on nesting for their
templates. -/
inductive Use where
  | run (limit : Nat) (input : Generation.Input)
  | runMany (limit : Nat) (inputs : List Generation.Input)
  | draw (stop : Int)

/-- What comes of a use, and the chooser afterwards, where nothing else draws from this chooser. -/
def Use.solo (file : Option String) (c : Chooser) : Use → Except Failure Answer × Chooser
  | .run limit input =>
    let o := Generation.run Chooser.draw limit file input c
    ((o.result.mapError .ofGeneration).map .output, o.source)
  | .runMany limit inputs =>
    let o := Generation.runMany Chooser.draw limit file inputs c
    ((o.result.mapError .ofGeneration).map .outputs, o.source)
  | .draw stop =>
    let (pick, c') := c.draw stop
    ((pick.mapError .refused).map .draw, c')

open Procedure

variable {α β : Type} {s : State} {chooser : Nat} {c : Chooser}

/-- The result is the first part of `r`. The store is as in `s`, but for the chooser with this
number, which is now the second part. -/
def Did (s : State) (chooser : Nat) (r : Except Failure α × Chooser)
    (p : Except Failure α × State) : Prop :=
  p.1 = r.1 ∧ State.SameStore { s with choosers := s.choosers.setIfInBounds chooser r.2 } p.2

theorem getD_choosers (hc : s.choosers[chooser]? = some c) :
    s.choosers.getD chooser (.scripted []) = c := by
  rw [Array.getD_eq_getD_getElem?, hc]
  rfl

theorem run_withChooser {β : Type} (hc : s.choosers[chooser]? = some c) (act : Heard → β × Heard) :
    (withChooser chooser act).run.run s =
      (.ok (act (c, s.asked)).1,
        { s with
          choosers := s.choosers.setIfInBounds chooser (act (c, s.asked)).2.1
          asked := (act (c, s.asked)).2.2 }) := by
  rw [← getD_choosers hc]
  rfl

theorem did_outcome {run : Heard → Generation.Outcome Heard Chooser.Refusal α}
    {solo : Chooser → Generation.Outcome Chooser Chooser.Refusal α}
    (hsolo : ∀ h : Heard, solo h.1 = (run h).map Prod.fst) (hc : s.choosers[chooser]? = some c) :
    Did s chooser ((solo c).result.mapError .ofGeneration, (solo c).source)
      ((outcome chooser run).run.run s) := by
  -- the outcome is a variable in what follows: the runs themselves must not be unfolded
  obtain ⟨o, ho⟩ : ∃ o, run (c, s.asked) = o := ⟨_, rfl⟩
  rw [outcome, run_bind_of_ok (run_withChooser hc _), hsolo (c, s.asked)]
  simp only [ho]
  obtain ⟨result, source, events⟩ := o
  cases result with
  | ok a => exact ⟨rfl, s.config, source.2, s.events ++ events, rfl⟩
  | error f => exact ⟨rfl, s.config, source.2, s.events ++ events, rfl⟩

theorem did_drawFrom (stop : Int) (hc : s.choosers[chooser]? = some c) :
    Did s chooser ((c.draw stop).1.mapError .refused, (c.draw stop).2)
      ((drawFrom chooser stop).run.run s) := by
  rw [drawFrom, run_bind_of_ok (run_withChooser hc _), Heard.draw]
  cases (c.draw stop).1 with
  | ok pick => exact ⟨rfl, s.config, _, s.events, rfl⟩
  | error e => exact ⟨rfl, s.config, _, s.events, rfl⟩

/-- An answer is made of what comes out. -/
theorem Did.map {r : Except Failure α × Chooser} {p : Procedure α}
    (h : Did s chooser r (p.run.run s)) (f : α → β) :
    Did s chooser (r.1.map f, r.2) ((do return f (← p) : Procedure β).run.run s) := by
  obtain ⟨hresult, hstore⟩ := h
  rcases hp : p.run.run s with ⟨e | a, s'⟩
  · rw [hp] at hresult hstore
    rw [run_bind_of_error hp]
    exact ⟨congrArg (Except.map f) hresult, hstore⟩
  · rw [hp] at hresult hstore
    rw [run_bind_of_ok hp]
    exact ⟨congrArg (Except.map f) hresult, hstore⟩

/-! ## Runs and draws in a session -/

theorem run_limit (s : State) : limit.run.run s = (.ok s.config.maxDepth, s) :=
  rfl

theorem did_run (file : Option String) (input : Generation.Input)
    (hc : s.choosers[chooser]? = some c) :
    Did s chooser ((Use.run s.config.maxDepth input).solo file c)
      ((do return Answer.output (← outcome chooser
        (Generation.run Heard.draw (← limit) file input)) : Procedure Answer).run.run s) := by
  rw [run_bind_of_ok (run_limit s)]
  exact (did_outcome (fun h => Generation.run_tracks tracks_heard _ _ _ h) hc).map Answer.output

theorem did_runMany (file : Option String) (inputs : List Generation.Input)
    (hc : s.choosers[chooser]? = some c) :
    Did s chooser ((Use.runMany s.config.maxDepth inputs).solo file c)
      ((do return Answer.outputs (← outcome chooser
        (Generation.runMany Heard.draw (← limit) file inputs)) : Procedure Answer).run.run s) := by
  rw [run_bind_of_ok (run_limit s)]
  exact (did_outcome (fun h => Generation.runMany_tracks tracks_heard _ _ _ h) hc).map
    Answer.outputs

theorem solo_tree {t : Tree} (ht : ∀ v, t ≠ .value v) (limit : Nat) (file : Option String)
    (c : Chooser) :
    (Use.run limit (.tree t)).solo file c =
      (((Evaluation.evaluate Chooser.draw t c).1.mapError .ofEvaluation).map .output,
        (Evaluation.evaluate Chooser.draw t c).2) := by
  have htree : (Generation.Input.tree t).toTree limit file =
      (⟨.ok t, []⟩ : Recorded (Except (Generation.Fault Chooser.Refusal) Tree)) := by
    cases t with
    | value v => exact absurd rfl (ht v)
    | _ => rfl
  rw [Use.solo, Generation.run, htree]
  simp only
  cases (Evaluation.evaluate Chooser.draw t c).1 with
  | ok text => rfl
  | error f => rfl

/-- A tree that makes text of itself makes the text of a run on it, under any limit. -/
theorem did_evaluateWith {t : Tree} (ht : ∀ v, t ≠ .value v) (limit : Nat) (file : Option String)
    (hc : s.choosers[chooser]? = some c) :
    Did s chooser ((Use.run limit (.tree t)).solo file c)
      ((do return Answer.output (← evaluateWith chooser t) : Procedure Answer).run.run s) := by
  have hrun : (evaluateWith chooser t).run.run s =
      let r := Evaluation.evaluate Heard.draw t (s.choosers.getD chooser (.scripted []), s.asked)
      (evaluated r.1).run.run
        { s with choosers := s.choosers.setIfInBounds chooser r.2.1, asked := r.2.2 } := rfl
  have htracks : Evaluation.evaluate Chooser.draw t c = _ :=
    Evaluation.evaluate_tracks tracks_heard t (c, s.asked)
  have hdid : Did s chooser
      ((Evaluation.evaluate Chooser.draw t c).1.mapError .ofEvaluation,
        (Evaluation.evaluate Chooser.draw t c).2) ((evaluateWith chooser t).run.run s) := by
    rw [hrun, getD_choosers hc, htracks]
    obtain ⟨result, source⟩ := Evaluation.evaluate Heard.draw t (c, s.asked)
    cases result with
    | ok text => exact ⟨rfl, s.config, source.2, s.events, rfl⟩
    | error f => exact ⟨rfl, s.config, source.2, s.events, rfl⟩
  rw [solo_tree ht]
  exact hdid.map Answer.output

section Generators

variable {name : String} {g : Generator} {s₁ : State}

theorem did_generate {e : InputExpr} {input : Generation.Input}
    (hg : s.generators.get? name = some g) (hinput : (buildInput e).run.run s = (.ok input, s₁))
    (hc : s₁.choosers[g.chooser]? = some c) :
    Did s₁ g.chooser ((Use.run s₁.config.maxDepth input).solo g.file c)
      ((Request.making (.generate name e)).act.run.run s) := by
  rw [Request.act, MakingCommand.act, run_bind_of_ok (run_find_of_some hg), run_bind_of_ok hinput]
  exact did_run g.file input hc

theorem did_generateMany {es : List InputExpr} {inputs : List Generation.Input}
    (hg : s.generators.get? name = some g)
    (hinputs : (es.mapM buildInput).run.run s = (.ok inputs, s₁))
    (hc : s₁.choosers[g.chooser]? = some c) :
    Did s₁ g.chooser ((Use.runMany s₁.config.maxDepth inputs).solo g.file c)
      ((Request.making (.generateMany name es)).act.run.run s) := by
  rw [Request.act, MakingCommand.act, run_bind_of_ok (run_find_of_some hg), run_bind_of_ok hinputs]
  exact did_runMany g.file inputs hc

theorem did_draw (stop : Int) (hg : s.generators.get? name = some g)
    (hc : s.choosers[g.chooser]? = some c) :
    Did s g.chooser ((Use.draw stop).solo g.file c)
      ((Request.making (.draw name stop)).act.run.run s) := by
  rw [Request.act, MakingCommand.act, run_bind_of_ok (run_find_of_some hg)]
  exact (did_drawFrom stop hc).map Answer.draw

end Generators

end Session
end Spintax
