import Spintax.Proofs.Scopes

/-!
# Spintax.Proofs.Moments

A session as a row of moments. What stands in scopes, threads and inner sessions is laid out in the
order in which it is asked for, each request with the state in which it is made.

* `Moment`, `Request.momentsAll`: a request without steps and the state before it; all moments of
  some requests.
* `results_eq`: the replies to the requests tell the results of the moments.
* `Linked s ms s'`: each moment has the store that the one before it has left.
* `Linked.keeps`: what is invariant and does not depend on the configuration holds at all moments.
* `Linked.performed`: what some of the moments do to one thing in the store, when the others leave
  this thing alone.
-/

namespace Spintax.Session

/-- A request, and the state in which it is made. -/
structure Moment where
  before : State
  request : Request

namespace Moment

def result (m : Moment) : Except Failure Answer := (m.request.act.run.run m.before).1

def after (m : Moment) : State := (m.request.act.run.run m.before).2

end Moment

/-- Requests that hold no steps. -/
def Request.IsSingle : Request → Prop
  | .within _ _ _ | .thread _ | .session _ => False
  | _ => True

theorem Request.IsSingle.isPlain_or {r : Request} (h : r.IsSingle) :
    r.IsPlain ∨ ∃ c, r = .settings c := by
  cases r with
  | settings c => exact .inr ⟨c, rfl⟩
  | _ => exact .inl h

mutual

/-- The moments at which something is asked for that holds no steps, when a request is made in a
state. There is none in steps whose configuration is refused. -/
def Request.moments : Request → State → List Moment
  | .within wanted steps _, s =>
    match Config.ofSettings wanted with
    | .ok c => Request.momentsAll steps { s with config := c }
    | .error _ => []
  | .thread steps, s => Request.momentsAll steps { s with config := .initial }
  | .session steps, s => Request.momentsAll steps s
  | r, s => [⟨s, r⟩]
termination_by structural r => r

def Request.momentsAll : List Request → State → List Moment
  | [], _ => []
  | r :: rs, s => r.moments s ++ Request.momentsAll rs ((reply r.act).run s).2
termination_by structural rs => rs

end

mutual

/-- The results that the result of a request tells of: those of its steps, if it has any. -/
def Request.results : Request → Except Failure Answer → List (Except Failure Answer)
  | .within _ steps _, .ok (.steps replies _) | .thread steps, .ok (.steps replies _)
  | .session steps, .ok (.steps replies _) => Request.resultsAll steps replies
  | .within _ _ _, _ | .thread _, _ | .session _, _ => []
  | _, result => [result]
termination_by structural r => r

def Request.resultsAll : List Request → List (Reply (Except Failure Answer)) →
    List (Except Failure Answer)
  | r :: rs, one :: more => r.results one.result ++ Request.resultsAll rs more
  | _, _ => []
termination_by structural rs => rs

end

mutual

theorem results_eq : ∀ (r : Request) (s : State),
    r.results (r.act.run.run s).1 = (r.moments s).map Moment.result
  | .query _, _ | .reading _, _ | .parsing _, _ | .making _, _ | .trees _, _ | .settings _, _ => rfl
  | .within wanted steps raises, s => by
    cases h : Config.ofSettings wanted with
    | ok c =>
      rw [act_within_of_ok h, Request.results, Request.moments, h]
      exact resultsAll_eq steps _
    | error e =>
      rw [act_within_of_error h, Request.moments, h]
      rfl
  | .thread steps, s => by
    rw [act_thread, Request.results, Request.moments]
    exact resultsAll_eq steps _
  | .session steps, s => by
    rw [act_session, Request.results, Request.moments]
    exact resultsAll_eq steps s

theorem resultsAll_eq : ∀ (rs : List Request) (s : State),
    Request.resultsAll rs ((Request.replies rs).run s).1 =
      (Request.momentsAll rs s).map Moment.result
  | [], _ => rfl
  | r :: rs, s => by
    rw [run_replies_cons, Request.resultsAll, Request.momentsAll, List.map_append, resultsAll_eq rs,
      ← results_eq r s]
    rfl

end

/-! ## From one moment to the next -/

/-- The same things are stored. The configuration, and what the next reply is to report, may
differ. -/
def State.SameStore (s s' : State) : Prop :=
  ∃ config asked events, s' = { s with config := config, asked := asked, events := events }

namespace State.SameStore

variable {s s' s'' : State}

theorem refl (s : State) : s.SameStore s :=
  ⟨s.config, s.asked, s.events, rfl⟩

theorem trans (h : s.SameStore s') (h' : s'.SameStore s'') : s.SameStore s'' := by
  obtain ⟨_, _, _, rfl⟩ := h
  obtain ⟨config, asked, events, rfl⟩ := h'
  exact ⟨config, asked, events, rfl⟩

theorem config (s : State) (c : Config) : s.SameStore { s with config := c } :=
  ⟨c, s.asked, s.events, rfl⟩

end State.SameStore

/-- Moments from a store to a store. -/
inductive Linked : State → List Moment → State → Prop where
  | nil {s s' : State} : s.SameStore s' → Linked s [] s'
  | cons {s s' : State} {m : Moment} {ms : List Moment} : s.SameStore m.before →
      m.request.IsSingle → Linked m.after ms s' → Linked s (m :: ms) s'

namespace Linked

variable {s s₁ s' : State} {m : Moment} {ms us : List Moment}

theorem uncons (h : Linked s (m :: ms) s') : s.SameStore m.before ∧ Linked m.after ms s' := by
  cases h with
  | cons hm _ hms => exact ⟨hm, hms⟩

theorem from_same (h : s.SameStore s₁) (hms : Linked s₁ ms s') : Linked s ms s' := by
  cases hms with
  | nil h' => exact .nil (h.trans h')
  | cons h' hm hms => exact .cons (h.trans h') hm hms

theorem append (hms : Linked s ms s₁) (hus : Linked s₁ us s') : Linked s (ms ++ us) s' := by
  induction hms with
  | nil h => exact hus.from_same h
  | cons h hm _ ih => exact .cons h hm (ih hus)

theorem to_same (hms : Linked s ms s₁) (h : s₁.SameStore s') : Linked s ms s' := by
  have := hms.append (.nil h)
  rwa [List.append_nil] at this

theorem split (h : Linked s (ms ++ us) s') : ∃ s₁, Linked s ms s₁ ∧ Linked s₁ us s' := by
  induction ms generalizing s with
  | nil => exact ⟨s, .nil (.refl s), h⟩
  | cons m ms ih =>
    obtain _ | ⟨hm, hsingle, h⟩ := h
    obtain ⟨s₁, hms, hus⟩ := ih h
    exact ⟨s₁, .cons hm hsingle hms, hus⟩

end Linked

mutual

theorem linked_moments : ∀ (r : Request) (s : State),
    Linked s (r.moments s) (r.act.run.run s).2
  | .query _, s | .reading _, s | .parsing _, s | .making _, s | .trees _, s | .settings _, s =>
    .cons (.refl s) trivial (.nil (.refl _))
  | .within wanted steps raises, s => by
    cases h : Config.ofSettings wanted with
    | ok c =>
      rw [act_within_of_ok h, Request.moments, h]
      exact ((linked_momentsAll steps _).from_same (.config s c)).to_same (.config _ s.config)
    | error e =>
      rw [act_within_of_error h, Request.moments, h]
      exact .nil (.refl s)
  | .thread steps, s => by
    rw [act_thread, Request.moments]
    exact ((linked_momentsAll steps _).from_same (.config s .initial)).to_same (.config _ s.config)
  | .session steps, s => by
    rw [act_session, Request.moments]
    exact linked_momentsAll steps s

theorem linked_momentsAll : ∀ (rs : List Request) (s : State),
    Linked s (Request.momentsAll rs s) ((Request.replies rs).run s).2
  | [], s => .nil (.refl s)
  | r :: rs, s => by
    -- a reply takes away only what it reports
    have hreply : (r.act.run.run s).2.SameStore ((reply r.act).run s).2 :=
      ⟨(r.act.run.run s).2.config, [], [], rfl⟩
    rw [run_replies_cons, Request.momentsAll]
    exact ((linked_moments r s).to_same hreply).append (linked_momentsAll rs _)

end

/-! ## What holds at all moments -/

/-- The statement does not depend on the configuration in force. -/
def Invariant.IgnoresConfig (V : Invariant) : Prop :=
  ∀ {s : State}, V.Holds s → ∀ c, V.Holds { s with config := c }

section Holding

variable {V : Invariant} {s s' : State} {m : Moment} {ms : List Moment}

theorem State.SameStore.holds (h : s.SameStore s') (hV : V.IgnoresConfig) (hs : V.Holds s) :
    V.Holds s' := by
  obtain ⟨config, asked, events, rfl⟩ := h
  exact hV (V.aside hs s.streams s.trees asked events) config

theorem sameStore_settings (c : ConfigCommand) (s : State) :
    s.SameStore ((Request.settings c).act.run.run s).2 := by
  cases c with
  | look => exact .refl s
  | change wanted =>
    cases h : Config.ofSettings wanted with
    | ok c =>
      rw [act_change_of_ok h]
      exact .config s c
    | error e =>
      rw [act_change_of_error h]
      exact .refl s
  | reset => exact .config s .initial

theorem Moment.holds_after (hsingle : m.request.IsSingle) (hV : V.IgnoresConfig)
    (hm : V.Permits m.request) (h : V.Holds m.before) : V.Holds m.after := by
  rcases hsingle.isPlain_or with hplain | ⟨c, hc⟩
  · exact (hplain.keeps hm 0 m.before h (Nat.zero_le _)).1
  · rw [Moment.after, hc]
    exact (sameStore_settings c m.before).holds hV h

theorem Linked.keeps (h : Linked s ms s') (hV : V.IgnoresConfig)
    (hms : ∀ m ∈ ms, V.Permits m.request) (hs : V.Holds s) : V.Holds s' := by
  induction h with
  | nil h => exact h.holds hV hs
  | cons h hsingle _ ih =>
    obtain ⟨hm, hms⟩ := List.forall_mem_cons.1 hms
    exact ih hms (Moment.holds_after hsingle hV hm (h.holds hV hs))

end Holding

/-! ## One thing in the store -/

section Performing

variable {σ υ : Type}

/-- The results of one use of a thing after the other, where each leaves the thing to the next. -/
def performed (perform : σ → υ → Except Failure Answer × σ) : σ → List υ →
    List (Except Failure Answer)
  | _, [] => []
  | x, u :: us => (perform x u).1 :: performed perform (perform x u).2 us

/-- The results of those moments that are uses. -/
def resultsOf (use? : Moment → Option υ) (ms : List Moment) : List (Except Failure Answer) :=
  (ms.filter fun m => (use? m).isSome).map Moment.result

/-- There is a thing in the store, about which `V` tells. The moments that are uses of it do to it
what they would do to it alone, and the others leave it as it is. Then all uses among the moments
have the results that they would have alone. -/
theorem Linked.performed {V : σ → Invariant} (hV : ∀ x, (V x).IgnoresConfig)
    {use? : Moment → Option υ} {perform : σ → υ → Except Failure Answer × σ} {x : σ} {s s' : State}
    {ms : List Moment} (h : Linked s ms s')
    (hown : ∀ x, ∀ m ∈ ms, ∀ u, use? m = some u → (V x).Holds m.before →
      m.result = (perform x u).1 ∧ (V (perform x u).2).Holds m.after)
    (hother : ∀ x, ∀ m ∈ ms, use? m = none → m.request.IsSingle → (V x).Holds m.before →
      (V x).Holds m.after)
    (hs : (V x).Holds s) :
    resultsOf use? ms = Session.performed perform x (ms.filterMap use?) := by
  induction h generalizing x with
  | nil => rfl
  | @cons s s' m ms h hsingle _ ih =>
    obtain ⟨hownm, hown⟩ := List.forall_mem_cons.1 fun m hm x => hown x m hm
    obtain ⟨hotherm, hother⟩ := List.forall_mem_cons.1 fun m hm x => hother x m hm
    have hbefore := h.holds (hV x) hs
    have ih (y : σ) := @ih y (fun x m hm => hown m hm x) (fun x m hm => hother m hm x)
    cases huse : use? m with
    | none =>
      have hafter := hotherm x huse hsingle hbefore
      rw [resultsOf, List.filter_cons_of_neg (by simp [huse]), List.filterMap_cons_none huse]
      exact ih x hafter
    | some u =>
      obtain ⟨hresult, hafter⟩ := hownm x u huse hbefore
      rw [resultsOf, List.filter_cons_of_pos (by simp [huse]), List.filterMap_cons_some huse,
        List.map_cons, hresult, Session.performed]
      exact congrArg _ (ih _ hafter)

end Performing

end Spintax.Session
