import Spintax.Proofs.KeptConfig

/-!
# Spintax.Proofs.Scopes

Configurations obey a lexical rule. A session keeps one configuration, which is changed, saved and
put back as the requests come; yet the one in force at a step can be read off the text: it is the
last one set before that step in the same scope, or else the one that the scope was entered with.
An exception amid some steps is one at the end of the steps before it.

* `Request.sets`: the configurations that a request puts in force in the scope it stands in.
* `inForce`: the lexical rule.
* `Shows`, `Scope`: the replies to a request, and to the requests of a scope, tell of the
  configurations by the rule.
* `configuration_scoped`: every session does so.
-/

namespace Spintax.Session

variable {ε α : Type}

mutual

/-- The configurations that a request puts in force where it stands, in order. What is set in steps
with a configuration of their own, or in a thread, is not among them, and what is refused is not. -/
def Request.sets : Request → List Config
  | .settings (.change wanted) =>
    match Config.ofSettings wanted with
    | .ok c => [c]
    | .error _ => []
  | .settings .reset => [.initial]
  | .session steps => Request.setsAll steps
  | _ => []
termination_by structural r => r

def Request.setsAll : List Request → List Config
  | [] => []
  | r :: rs => r.sets ++ Request.setsAll rs
termination_by structural rs => rs

end

/-- The configuration in a scope entered with `entry`, after these requests in it. -/
def inForce (entry : Config) (before : List Request) : Config :=
  (Request.setsAll before).getLast?.getD entry

mutual

/-- In a scope entered with `entry`, where `before` was asked for, the result of a request is as the
configuration in force has it. Where the request has steps, so are theirs, in their scope. -/
inductive Shows : Config → List Request → Request → Except Failure Answer → Prop where
  | plain {entry : Config} {before : List Request} {r : Request}
      {result : Except Failure Answer} : r.IsPlain → Shows entry before r result
  | look {entry : Config} {before : List Request} :
      Shows entry before (.settings .look) (.ok (.config (inForce entry before)))
  | change {entry c : Config} {before : List Request} {wanted : Config.Settings} :
      Config.ofSettings wanted = .ok c →
      Shows entry before (.settings (.change wanted)) (.ok (.config c))
  | changeRefused {entry : Config} {before : List Request} {wanted : Config.Settings}
      {e : Config.DepthError} : Config.ofSettings wanted = .error e →
      Shows entry before (.settings (.change wanted)) (.error (.depth e))
  | reset {entry : Config} {before : List Request} :
      Shows entry before (.settings .reset) (.ok (.config .initial))
  | within {entry c : Config} {before steps : List Request} {wanted : Config.Settings}
      {raises : Bool} {replies : List (Reply (Except Failure Answer))} :
      Config.ofSettings wanted = .ok c → Scope c [] steps replies →
      Shows entry before (.within wanted steps raises)
        (.ok (.steps replies (some (inForce entry before))))
  | withinRefused {entry : Config} {before steps : List Request} {wanted : Config.Settings}
      {raises : Bool} {e : Config.DepthError} : Config.ofSettings wanted = .error e →
      Shows entry before (.within wanted steps raises) (.error (.depth e))
  | thread {entry : Config} {before steps : List Request}
      {replies : List (Reply (Except Failure Answer))} : Scope .initial [] steps replies →
      Shows entry before (.thread steps) (.ok (.steps replies (some (inForce entry before))))
  | session {entry : Config} {before steps : List Request}
      {replies : List (Reply (Except Failure Answer))} : Scope entry before steps replies →
      Shows entry before (.session steps) (.ok (.steps replies none))

/-- The replies to the rest of the requests of a scope, after `before`. -/
inductive Scope : Config → List Request → List Request →
    List (Reply (Except Failure Answer)) → Prop where
  | nil {entry : Config} {before : List Request} : Scope entry before [] []
  | cons {entry : Config} {before rs : List Request} {r : Request}
      {one : Reply (Except Failure Answer)} {more : List (Reply (Except Failure Answer))} :
      Shows entry before r one.result → Scope entry (before ++ [r]) rs more →
      Scope entry before (r :: rs) (one :: more)

end

/-! ## The rule -/

theorem setsAll_append (rs us : List Request) :
    Request.setsAll (rs ++ us) = Request.setsAll rs ++ Request.setsAll us := by
  induction rs with
  | nil => rfl
  | cons r rs ih =>
    rw [List.cons_append, Request.setsAll, ih, Request.setsAll, List.append_assoc]

/-- What was in force before counts only where nothing is set after it. -/
theorem inForce_append (entry : Config) (before rs : List Request) :
    inForce entry (before ++ rs) = inForce (inForce entry before) rs := by
  simp only [inForce, setsAll_append, List.getLast?_append]
  cases (Request.setsAll rs).getLast? with
  | none => rfl
  | some c => rfl

theorem inForce_concat (entry : Config) (before : List Request) (r : Request) :
    inForce entry (before ++ [r]) = r.sets.getLast?.getD (inForce entry before) := by
  rw [inForce_append, inForce, Request.setsAll, Request.setsAll, List.append_nil]

theorem inForce_concat_of_sets_nil {r : Request} (h : r.sets = []) (entry : Config)
    (before : List Request) : inForce entry (before ++ [r]) = inForce entry before := by
  rw [inForce_concat, h]
  rfl

/-! ## What is done under another configuration -/

open Procedure

/-- The body starts under its own configuration. However it ends, and whatever it has set, the one
before it is in force again. -/
theorem run_under (c : Config) (body : ExceptT ε (StateM State) α) (s : State) :
    (under c body).run.run s =
      ((body.run.run { s with config := c }).1,
        { (body.run.run { s with config := c }).2 with config := s.config }) := by
  -- all that counts of the body is what it comes to from the state in which it starts
  have h (outcome : Except ε α) (s' : State) :
      (under c fun _ => (outcome, s')).run.run s = (outcome, { s' with config := s.config }) := by
    cases outcome <;> rfl
  exact h (body { s with config := c }).1 (body { s with config := c }).2

section Acts

variable {wanted : Config.Settings} {c : Config} {e : Config.DepthError} {steps : List Request}
  {s : State}

theorem act_change_of_ok (h : Config.ofSettings wanted = .ok c) :
    (Request.settings (.change wanted)).act.run.run s =
      (.ok (.config c), { s with config := c }) := by
  rw [Request.act, ConfigCommand.act, checkConfig, h]
  rfl

theorem act_change_of_error (h : Config.ofSettings wanted = .error e) :
    (Request.settings (.change wanted)).act.run.run s = (.error (.depth e), s) := by
  rw [Request.act, ConfigCommand.act, checkConfig, h]
  rfl

theorem act_within_of_ok (h : Config.ofSettings wanted = .ok c) (raises : Bool) :
    (Request.within wanted steps raises).act.run.run s =
      (.ok (.steps ((Request.replies steps).run { s with config := c }).1 (some s.config)),
        { ((Request.replies steps).run { s with config := c }).2 with config := s.config }) := by
  rw [Request.act, checkConfig, h]
  cases raises <;> rfl

theorem act_within_of_error (h : Config.ofSettings wanted = .error e) (raises : Bool) :
    (Request.within wanted steps raises).act.run.run s = (.error (.depth e), s) := by
  rw [Request.act, checkConfig, h]
  rfl

theorem act_thread :
    (Request.thread steps).act.run.run s =
      (.ok (.steps ((Request.replies steps).run { s with config := .initial }).1 (some s.config)),
        { ((Request.replies steps).run { s with config := .initial }).2 with
          config := s.config }) := by
  rw [Request.act]
  rfl

theorem act_session :
    (Request.session steps).act.run.run s =
      (.ok (.steps ((Request.replies steps).run s).1 none), ((Request.replies steps).run s).2) := by
  rw [Request.act]
  rfl

end Acts

/-! ## Every session -/

theorem Request.IsPlain.sets {r : Request} (h : r.IsPlain) : r.sets = [] := by
  cases r with
  | settings c => exact h.elim
  | session steps => exact h.elim
  | _ => rfl

section Steps

variable {entry : Config} {before : List Request} {s : State}

theorem plain_shows {r : Request} (h : r.IsPlain) (hs : s.config = inForce entry before) :
    Shows entry before r (r.act.run.run s).1 ∧
      (r.act.run.run s).2.config = inForce entry (before ++ [r]) :=
  ⟨.plain h, by rw [h.keepsConfig s, hs, inForce_concat_of_sets_nil h.sets]⟩

theorem settings_shows (c : ConfigCommand) (hs : s.config = inForce entry before) :
    Shows entry before (.settings c) ((Request.settings c).act.run.run s).1 ∧
      ((Request.settings c).act.run.run s).2.config = inForce entry (before ++ [.settings c]) := by
  rw [inForce_concat]
  cases c with
  | look =>
    have hact : (Request.settings .look).act.run.run s = (.ok (.config s.config), s) := rfl
    rw [hact]
    exact ⟨hs ▸ .look, hs⟩
  | change wanted =>
    cases h : Config.ofSettings wanted with
    | ok c =>
      rw [act_change_of_ok h, Request.sets, h]
      exact ⟨.change h, rfl⟩
    | error e =>
      rw [act_change_of_error h, Request.sets, h]
      exact ⟨.changeRefused h, hs⟩
  | reset => exact ⟨.reset, rfl⟩

end Steps

theorem run_replies_cons (r : Request) (rs : List Request) (s : State) :
    (Request.replies (r :: rs)).run s =
      (((reply r.act).run s).1 :: ((Request.replies rs).run ((reply r.act).run s).2).1,
        ((Request.replies rs).run ((reply r.act).run s).2).2) := by
  rw [Request.replies]
  rfl

mutual

/-- One request: its result is as the rule has it, and the configuration after it, too. -/
theorem act_shows : ∀ (r : Request) {entry : Config} {before : List Request} {s : State},
    s.config = inForce entry before →
    Shows entry before r (r.act.run.run s).1 ∧
      (r.act.run.run s).2.config = inForce entry (before ++ [r])
  | .query _, entry, before, s, hs => plain_shows trivial hs
  | .reading _, entry, before, s, hs => plain_shows trivial hs
  | .parsing _, entry, before, s, hs => plain_shows trivial hs
  | .making _, entry, before, s, hs => plain_shows trivial hs
  | .trees _, entry, before, s, hs => plain_shows trivial hs
  | .settings c, entry, before, s, hs => settings_shows c hs
  | .within wanted steps raises, entry, before, s, hs => by
    rw [inForce_concat_of_sets_nil rfl]
    cases h : Config.ofSettings wanted with
    | error e =>
      rw [act_within_of_error h]
      exact ⟨.withinRefused h, hs⟩
    | ok c =>
      have hsteps := (@replies_scope steps c [] { s with config := c } rfl).1
      rw [act_within_of_ok h, hs]
      exact ⟨.within h hsteps, rfl⟩
  | .thread steps, entry, before, s, hs => by
    have hsteps := (@replies_scope steps .initial [] { s with config := .initial } rfl).1
    rw [inForce_concat_of_sets_nil rfl, act_thread, hs]
    exact ⟨.thread hsteps, rfl⟩
  | .session steps, entry, before, s, hs => by
    obtain ⟨hsteps, hafter⟩ := replies_scope steps hs
    rw [inForce_append, inForce] at hafter
    rw [act_session, inForce_concat, Request.sets]
    exact ⟨.session hsteps, hafter⟩

theorem replies_scope : ∀ (rs : List Request) {entry : Config} {before : List Request} {s : State},
    s.config = inForce entry before →
    Scope entry before rs ((Request.replies rs).run s).1 ∧
      ((Request.replies rs).run s).2.config = inForce entry (before ++ rs)
  | [], entry, before, s, hs => ⟨.nil, by rwa [List.append_nil]⟩
  | r :: rs, entry, before, s, hs => by
    obtain ⟨hshows, hconfig⟩ := act_shows r hs
    obtain ⟨hscope, hafter⟩ :=
      @replies_scope rs entry (before ++ [r]) ((reply r.act).run s).2 hconfig
    rw [run_replies_cons, List.append_cons]
    exact ⟨.cons hshows hscope, hafter⟩

end

/-- A session, with any requests in it and from any state, has its configurations by the rule.
However steps with a configuration of their own end, and whatever a thread does, the configuration
before them is in force again; what is out of bounds is refused and changes nothing; and all that
is ever in force is within bounds. -/
theorem configuration_scoped (steps : List Request) :
    (∀ entropy, ∃ replies, (answer (.session steps) entropy).result = .ok (.steps replies none) ∧
      Scope .initial [] steps replies) ∧
    (∀ s : State, Scope s.config [] steps ((Request.replies steps).run s).1 ∧
      ∀ n, ((Request.replies (steps.take n)).run s).2.config = inForce s.config (steps.take n)) ∧
    (∀ wanted raises, KeepsConfig (Request.within wanted steps raises).act) ∧
    KeepsConfig (Request.thread steps).act ∧
    (∀ (ε α : Type) (c : Config) (body : ExceptT ε (StateM State) α) (s : State),
      (under c body).run.run s =
        ((body.run.run { s with config := c }).1,
          { (body.run.run { s with config := c }).2 with config := s.config })) ∧
    (∀ wanted : Config.Settings, ¬ (1 ≤ wanted.maxDepth ∧ wanted.maxDepth ≤ 256) → ∀ s : State,
      (Request.settings (.change wanted)).act.run.run s =
        (.error (.depth ⟨wanted.maxDepth⟩), s) ∧
      ∀ raises, (Request.within wanted steps raises).act.run.run s =
        (.error (.depth ⟨wanted.maxDepth⟩), s)) ∧
    (∀ wanted c, Config.ofSettings wanted = .ok c ↔
      (c.maxDepth : Int) = wanted.maxDepth ∧ c.seed = wanted.seed) ∧
    ∀ s : State, 1 ≤ s.config.maxDepth ∧ s.config.maxDepth ≤ 256 := by
  have hscope (rs : List Request) (s : State) := @replies_scope rs s.config [] s rfl
  refine ⟨fun entropy => ⟨_, congrArg Prod.fst act_session, (hscope steps (.initial entropy)).1⟩,
    fun s => ⟨(hscope steps s).1, fun n => (hscope (steps.take n) s).2⟩, fun wanted raises s => ?_,
    fun s => ?_, fun _ _ => run_under, fun wanted hout s => ?_,
    fun _ _ => Config.ofSettings_eq_ok_iff,
    fun s => ⟨s.config.one_le_maxDepth, s.config.maxDepth_le⟩⟩
  · cases h : Config.ofSettings wanted with
    | ok c => rw [act_within_of_ok h]
    | error e => rw [act_within_of_error h]
  · rw [act_thread]
  · have h : Config.ofSettings wanted = .error ⟨wanted.maxDepth⟩ :=
      Config.ofSettings_eq_error_iff.2 ⟨hout, rfl⟩
    exact ⟨act_change_of_error h, act_within_of_error h⟩

/-- Steps that reset their own configuration, start a thread that sets one, ask for one that is out
of bounds, and end by an exception. Before and after them the one set outside is in force. -/
theorem configuration_scoped_within :
    let body : List Request := [.settings .reset,
      .thread [.settings (.change { seed := some 11 })], .settings (.change { maxDepth := 0 })]
    let steps : List Request := [.settings (.change { maxDepth := 8 }),
      .within { maxDepth := 2 } body true, .settings .look]
    (∀ entropy, ∃ replies, (answer (.session steps) entropy).result = .ok (.steps replies none) ∧
      Scope .initial [] steps replies) ∧
    (∀ s : State, ((Request.replies (steps.take 2)).run s).2.config.maxDepth = 8) ∧
    ∀ s : State, (Request.within { maxDepth := 0 } steps true).act.run.run s =
      (.error (.depth ⟨0⟩), s) := by
  intro body steps
  obtain ⟨hanswer, hrun, -, -, -, hrefused, -, -⟩ := configuration_scoped steps
  refine ⟨hanswer, fun s => ?_, fun s => (hrefused { maxDepth := 0 } (by decide) s).2 true⟩
  rw [(hrun s).2 2]
  rfl

end Spintax.Session
