import Spintax.Session.Run

/-!
# Spintax.Proofs.Invariants

What stays true in a session. The elementary actions are gone through once, and so are the actions
made of them. A statement about states holds on if it survives each of the few things that can be
done to a state, some of which only with some choosers or under some names.

* `run_bind_of_ok`, `run_bind_of_error`: how one action goes on after another.
* `Invariant`: such a statement, the choosers and names that it leaves open, and why it survives.
* `Invariant.Keeps`, `Invariant.Gives`: actions that do no more than that, and what is known of
  the choosers that they find.
* `Invariant.Permits`: requests that keep to the names left open.
* `Invariant.Keeps.query` and so on: what such requests do keeps the statement true.
-/

namespace Spintax.Session

/-! ## How actions run -/

section Running

variable {α β : Type} {s s' : State}

theorem run_bind_of_ok {p : Procedure α} {a : α} (h : p.run.run s = (.ok a, s'))
    (k : α → Procedure β) : (p >>= k).run.run s = (k a).run.run s' := by
  rw [ExceptT.run_bind, StateT.run_bind, h]
  rfl

theorem run_bind_of_error {p : Procedure α} {e : Failure} (h : p.run.run s = (.error e, s'))
    (k : α → Procedure β) : (p >>= k).run.run s = (.error e, s') := by
  rw [ExceptT.run_bind, StateT.run_bind, h]
  rfl

variable {table : State → Names α} {name : String}

theorem run_get (s : State) : (get : Procedure State).run.run s = (.ok s, s) := rfl

theorem run_find_of_some {a : α} (h : (table s).get? name = some a) :
    (Procedure.find table name).run.run s = (.ok a, s) := by
  rw [Procedure.find, run_bind_of_ok (run_get s), h]
  rfl

theorem run_find_of_none (h : (table s).get? name = none) :
    (Procedure.find table name).run.run s = (.error (.noSuchName name), s) := by
  rw [Procedure.find, run_bind_of_ok (run_get s), h]
  rfl

end Running

/-! ## Invariants -/

/-- A statement about states. A chooser that is free may be drawn from and be given names; which
ones are depends on how many there are. -/
structure Invariant where
  Holds : State → Prop
  Free : (size chooser : Nat) → Prop
  /-- a chooser may be stored under the name -/
  OpenChooser : String → Prop
  /-- a generator may be stored and used under the name -/
  OpenGenerator : String → Prop
  OpenParser : String → Prop
  free_mono {n m chooser : Nat} : n ≤ m → Free n chooser → Free m chooser
  aside {s : State} : Holds s → ∀ streams trees asked events,
    Holds { s with streams := streams, trees := trees, asked := asked, events := events }
  add {s : State} : Holds s → ∀ c, Holds { s with choosers := s.choosers.push c } ∧
    Free (s.choosers.size + 1) s.choosers.size
  draw {s : State} {chooser : Nat} : Holds s → Free s.choosers.size chooser → ∀ c,
    Holds { s with choosers := s.choosers.setIfInBounds chooser c }
  putChooser {s : State} {name : String} {chooser : Option Nat} : Holds s → OpenChooser name →
    (∀ i ∈ chooser, Free s.choosers.size i) →
    Holds { s with chooserNames := s.chooserNames.put name chooser }
  findChooser {s : State} {name : String} {chooser : Nat} : Holds s →
    s.chooserNames.get? name = some (some chooser) → Free s.choosers.size chooser
  putGenerator {s : State} {name : String} {g : Generator} : Holds s → OpenGenerator name →
    Free s.choosers.size g.chooser → Holds { s with generators := s.generators.put name g }
  findGenerator {s : State} {name : String} {g : Generator} : Holds s → OpenGenerator name →
    s.generators.get? name = some g → Free s.choosers.size g.chooser
  putParser {s : State} {name : String} : Holds s → OpenParser name → ∀ p,
    Holds { s with parsers := s.parsers.put name p }

namespace Invariant

variable {V : Invariant} {n : Nat} {α β : Type}

/-- Where there are at least `n` choosers, the statement is true after the action if it is true
before, also where the action fails. No chooser is taken away. -/
def Keeps (V : Invariant) (n : Nat) (p : Procedure α) : Prop :=
  ∀ s : State, V.Holds s → n ≤ s.choosers.size →
    V.Holds (p.run.run s).2 ∧ s.choosers.size ≤ (p.run.run s).2.choosers.size

/-- What comes of the action is moreover as it should be, among as many choosers as there are
then. -/
def Gives (V : Invariant) (n : Nat) (p : Procedure α) (Q : (size : Nat) → α → Prop) : Prop :=
  V.Keeps n p ∧ ∀ s : State, V.Holds s → n ≤ s.choosers.size → ∀ a,
    (p.run.run s).1 = .ok a → Q (p.run.run s).2.choosers.size a

namespace Keeps

theorem mono {m : Nat} {p : Procedure α} (h : V.Keeps n p) (hnm : n ≤ m) : V.Keeps m p :=
  fun s hs hm => h s hs (Nat.le_trans hnm hm)

theorem pure (a : α) : V.Keeps n (Pure.pure a : Procedure α) :=
  fun _ hs _ => ⟨hs, Nat.le_refl _⟩

theorem throw (e : Failure) : V.Keeps n (MonadExcept.throw e : Procedure α) :=
  fun _ hs _ => ⟨hs, Nat.le_refl _⟩

theorem get : V.Keeps n (MonadState.get : Procedure State) :=
  fun _ hs _ => ⟨hs, Nat.le_refl _⟩

/-- Anything that leaves the choosers alone. -/
theorem modifyGet {f : State → α × State} (hf : ∀ s, (f s).2.choosers = s.choosers)
    (h : ∀ s, V.Holds s → n ≤ s.choosers.size → V.Holds (f s).2) :
    V.Keeps n (MonadState.modifyGet f : Procedure α) :=
  fun s hs hn => ⟨h s hs hn, Nat.le_of_eq (congrArg Array.size (hf s)).symm⟩

theorem bind_gives {p : Procedure α} {k : α → Procedure β} {Q : Nat → α → Prop}
    (hp : V.Gives n p Q) (hk : ∀ a m, n ≤ m → Q m a → V.Keeps m (k a)) : V.Keeps n (p >>= k) := by
  intro s hs hn
  obtain ⟨hs', hle⟩ := hp.1 s hs hn
  have hQ := hp.2 s hs hn
  rcases h : p.run.run s with ⟨e | a, s'⟩
  · rw [h] at hs' hle
    rw [run_bind_of_error h]
    exact ⟨hs', hle⟩
  · rw [h] at hs' hle hQ
    rw [run_bind_of_ok h]
    obtain ⟨hs'', hle'⟩ := hk a _ (Nat.le_trans hn hle) (hQ a rfl) s' hs' (Nat.le_refl _)
    exact ⟨hs'', Nat.le_trans hle hle'⟩

theorem gives {p : Procedure α} (hp : V.Keeps n p) : V.Gives n p fun _ _ => True :=
  ⟨hp, fun _ _ _ _ _ => trivial⟩

theorem bind {p : Procedure α} {k : α → Procedure β} (hp : V.Keeps n p)
    (hk : ∀ a, V.Keeps n (k a)) : V.Keeps n (p >>= k) :=
  bind_gives hp.gives fun a _ hm _ => (hk a).mono hm

theorem map {p : Procedure α} (hp : V.Keeps n p) (f : α → β) : V.Keeps n (f <$> p) := by
  rw [map_eq_pure_bind]
  exact hp.bind fun a => .pure (f a)

theorem mapM {f : α → Procedure β} (hf : ∀ a, V.Keeps n (f a)) (as : List α) :
    V.Keeps n (as.mapM f) := by
  induction as with
  | nil => exact .pure []
  | cons a as ih =>
    rw [List.mapM_cons]
    exact (hf a).bind fun b => ih.bind fun bs => .pure (b :: bs)

theorem optionMapM {f : α → Procedure β} (hf : ∀ a, V.Keeps n (f a)) (a : Option α) :
    V.Keeps n (a.mapM f) := by
  cases a with
  | none => exact .pure none
  | some a => exact (hf a).map some

/-! ## The elementary actions -/

theorem find (table : State → Names α) (name : String) :
    V.Keeps n (Procedure.find table name) := by
  refine .bind .get fun s => ?_
  split
  · exact .pure _
  · exact .throw _

theorem hear (events : List Event) : V.Keeps n (Procedure.hear events) :=
  .modifyGet (fun _ => rfl) fun s hs _ => V.aside hs s.streams s.trees s.asked _

theorem heed (r : Recorded (Except Diagnostic α)) : V.Keeps n (Procedure.heed r) := by
  refine .bind (.hear _) fun _ => ?_
  split
  · exact .pure _
  · exact .throw _

theorem storeTree (name : Option String) (t : Tree) : V.Keeps n (Procedure.storeTree name t) := by
  cases name with
  | none => exact .pure _
  | some _ => exact .modifyGet (fun _ => rfl) fun s hs _ => V.aside hs s.streams _ s.asked s.events

theorem keepTree (name : Option String) (t : Tree) : V.Keeps n (Procedure.keepTree name t) :=
  .bind (.storeTree _ _) fun _ => .pure _

theorem limit : V.Keeps n Procedure.limit :=
  .bind .get fun _ => .pure _

theorem putStream (name : String) (stream : TokenStream) :
    V.Keeps n (Procedure.putStream name stream) :=
  .modifyGet (fun _ => rfl) fun s hs _ => V.aside hs _ s.trees s.asked s.events

theorem putParser {name : String} (h : V.OpenParser name) (p : Parser) :
    V.Keeps n (Procedure.putParser name p) :=
  .modifyGet (fun _ => rfl) fun _ hs _ => V.putParser hs h p

theorem withChooser {chooser : Nat} (h : V.Free n chooser) (use : Heard → α × Heard) :
    V.Keeps n (Procedure.withChooser chooser use) := by
  intro s hs hn
  have hdraw := V.draw hs (V.free_mono hn h)
    (use (s.choosers.getD chooser (.scripted []), s.asked)).2.1
  exact ⟨V.aside hdraw s.streams s.trees _ s.events, Nat.le_of_eq Array.size_setIfInBounds.symm⟩

/-! ## Building -/

theorem built (r : Except Tree.BuildError Tree) : V.Keeps n (Procedure.built r) := by
  cases r with
  | ok t => exact .pure t
  | error e => exact .throw _

mutual

theorem build : ∀ e : TreeExpr, V.Keeps n (Procedure.build e)
  | .text _ _ | .bare _ | .value _ | .nest _ _ _ _ => .pure _
  | .pattern parts _ | .block parts _ => .bind (buildAll parts) fun _ => .built _
  | .source _ _ => .bind .limit fun _ => .heed _
  | .named _ => .find _ _
  | .part e _ => by
    refine .bind (build e) fun t => ?_
    split
    · exact .pure _
    · exact .throw _

theorem buildAll : ∀ es : List TreeExpr, V.Keeps n (Procedure.buildAll es)
  | [] => .pure _
  | e :: es => .bind (build e) fun _ => .bind (buildAll es) fun _ => .pure _

end

theorem buildDistinct (es : List TreeExpr) : V.Keeps n (Procedure.buildDistinct es) := by
  refine .bind (.mapM (fun e => .bind (build e) fun t => ?_) es) fun _ => .pure _
  split
  · exact .throw _
  · exact .pure _

theorem buildInput (input : InputExpr) : V.Keeps n (Procedure.buildInput input) := by
  cases input with
  | source text => exact .pure _
  | tree e => exact .bind (build e) fun _ => .pure _

theorem buildRevision (r : RevisionExpr) : V.Keeps n (Procedure.buildRevision r) :=
  .bind (.optionMapM buildAll _) fun _ => .bind (.optionMapM buildAll _) fun _ => .pure _

theorem buildParser (tokens : TokensExpr) (file : Option String) :
    V.Keeps n (Procedure.buildParser tokens file) := by
  have hlimit (ts : List Token) : V.Keeps n (do
      return { tokens := ts, file := file, limit := ← Procedure.limit } : Procedure Parser) :=
    .bind .limit fun _ => .pure _
  cases tokens with
  | list ts => exact hlimit ts
  | source text textFile => exact .bind (.heed _) hlimit

/-! ## Making text -/

theorem evaluated (r : Except (Evaluation.Fault Chooser.Refusal) String) :
    V.Keeps n (Procedure.evaluated r) := by
  cases r with
  | ok text => exact .pure _
  | error f => exact .throw _

theorem evaluateWith {chooser : Nat} (h : V.Free n chooser) (t : Tree) :
    V.Keeps n (Procedure.evaluateWith chooser t) :=
  .bind (.withChooser h _) fun _ => .evaluated _

theorem evaluateAlone (t : Tree) : V.Keeps n (Procedure.evaluateAlone t) :=
  .evaluated _

theorem outcome {chooser : Nat} (h : V.Free n chooser)
    (run : Heard → Generation.Outcome Heard Chooser.Refusal α) :
    V.Keeps n (Procedure.outcome chooser run) := by
  refine .bind (.withChooser h _) fun o => .bind (.hear _) fun _ => ?_
  split
  · exact .pure _
  · exact .throw _

theorem drawFrom {chooser : Nat} (h : V.Free n chooser) (stop : Int) :
    V.Keeps n (Procedure.drawFrom chooser stop) := by
  refine .bind (.withChooser h _) fun r => ?_
  split
  · exact .pure _
  · exact .throw _

end Keeps

/-! ## Choosers that are found or made -/

namespace Gives

theorem find {table : State → Names α} {name : String} {Q : Nat → α → Prop}
    (h : ∀ s a, V.Holds s → (table s).get? name = some a → Q s.choosers.size a) :
    V.Gives n (Procedure.find table name) Q := by
  refine ⟨.find _ _, fun s hs _ a ha => ?_⟩
  cases hget : (table s).get? name with
  | none =>
    rw [run_find_of_none hget] at ha
    cases ha
  | some b =>
    rw [run_find_of_some hget] at ha ⊢
    cases ha
    exact h s a hs hget

theorem findGenerator {name : String} (h : V.OpenGenerator name) :
    V.Gives n (Procedure.find State.generators name) fun m g => V.Free m g.chooser :=
  .find fun _ _ hs hget => V.findGenerator hs h hget

theorem addChooser (c : Chooser) : V.Gives n (Procedure.addChooser c) V.Free := by
  have hrun (s : State) : (Procedure.addChooser c).run.run s =
      (.ok s.choosers.size, { s with choosers := s.choosers.push c }) := rfl
  have hsize (s : State) : (s.choosers.push c).size = s.choosers.size + 1 := Array.size_push c
  refine ⟨fun s hs _ => ⟨(V.add hs c).1, ?_⟩, fun s hs _ a ha => ?_⟩
  · rw [hrun, hsize]
    exact Nat.le_succ _
  · rw [hrun] at ha ⊢
    cases ha
    rw [hsize]
    exact (V.add hs c).2

theorem buildChooser (e : ChooserExpr) :
    V.Gives n (Procedure.buildChooser e) fun m chooser => ∀ i ∈ chooser, V.Free m i := by
  have hadd (c : Chooser) : V.Gives n (some <$> Procedure.addChooser c)
      fun m chooser => ∀ i ∈ chooser, V.Free m i := by
    refine ⟨.map (addChooser c).1 _, fun s hs hn a ha i hi => ?_⟩
    cases ha
    cases hi
    exact (addChooser c).2 s hs hn _ rfl
  cases e with
  | absent => exact ⟨.pure _, fun s _ _ a ha i hi => by cases ha; cases hi⟩
  | picks ps => exact hadd _
  | seed n => exact hadd _
  | named name =>
    refine .find fun s chooser hs hget i hi => ?_
    cases hi
    exact V.findChooser hs hget

theorem orDefault {chooser : Option Nat} (h : ∀ i ∈ chooser, V.Free n i) :
    V.Gives n (Procedure.orDefault chooser) V.Free := by
  cases chooser with
  | none =>
    exact ⟨.bind .get fun s => (addChooser _).1, fun s hs hn a ha =>
      (addChooser (.ofConfig s.config (s.entropy s.choosers.size))).2 s hs hn a ha⟩
  | some i =>
    refine ⟨.pure _, fun s _ hn a ha => ?_⟩
    cases ha
    exact V.free_mono hn (h i rfl)

end Gives

/-! ## Whole requests -/

/-- The names under which a request stores or uses something are left open. -/
def Permits (V : Invariant) : Request → Prop
  | .parsing (.start name _ _) | .parsing (.resume name _) => V.OpenParser name
  | .making (.chooser name _) => V.OpenChooser name
  | .making (.start name _ _) | .making (.generate name _) | .making (.generateMany name _)
  | .making (.draw name _) => V.OpenGenerator name
  | _ => True

namespace Keeps

theorem query (q : Query) : V.Keeps n (Request.query q).act := by
  rw [Request.act]
  cases q.answer with
  | ok a => exact .pure a
  | error e => exact .throw e

theorem reading (c : ReadingCommand) : V.Keeps n c.act := by
  cases c with
  | tokens text file => exact .bind (.heed _) fun _ => .pure _
  | trace text file => exact .bind (.hear _) fun _ => .pure _
  | start name text file => exact .bind (.putStream _ _) fun _ => .pure _
  | next name =>
    exact .bind (.find _ _) fun _ => .bind (.putStream _ _) fun _ => .bind (.hear _) fun _ =>
      .pure _
  | rest name =>
    exact .bind (.find _ _) fun _ => .bind (.putStream _ _) fun _ => .bind (.hear _) fun _ =>
      .pure _
  | restart name => exact .bind (.find _ _) fun _ => .bind (.putStream _ _) fun _ => .pure _

theorem parsing {c : ParsingCommand} (h : V.Permits (.parsing c)) : V.Keeps n c.act := by
  cases c with
  | parse e file store =>
    exact .bind (.buildParser _ _) fun _ => .bind (.heed _) fun _ => .keepTree _ _
  | start name e file =>
    exact .bind (.buildParser _ _) fun _ => .bind (.putParser h _) fun _ => .pure _
  | resume name store =>
    exact .bind (.find _ _) fun _ => .bind (.putParser h _) fun _ => .bind (.heed _) fun _ =>
      .keepTree _ _
  | compile text file store => exact .bind .limit fun _ => .bind (.heed _) fun _ => .keepTree _ _

theorem making {c : MakingCommand} (h : V.Permits (.making c)) : V.Keeps n c.act := by
  cases c with
  | chooser name e =>
    refine .bind_gives (.buildChooser e) fun c m _ hc => .bind (.modifyGet (fun _ => rfl) ?_)
      fun _ => .pure _
    exact fun s hs hm => V.putChooser hs h fun i hi => V.free_mono hm (hc i hi)
  | evaluate e c =>
    refine .bind (.build e) fun t => .bind_gives (.buildChooser c) fun c m _ hc => ?_
    cases c with
    | none => exact .bind (.evaluateAlone t) fun _ => .pure _
    | some c => exact .bind (.evaluateWith (hc c rfl) t) fun _ => .pure _
  | runTree e c =>
    refine .bind (.build e) fun t => ?_
    split
    · exact .throw _
    · exact .bind_gives (.buildChooser c) fun c _ _ hc => .bind_gives (.orDefault hc)
        fun c _ _ hc => .bind (.evaluateWith hc _) fun _ => .pure _
  | run input c file =>
    exact .bind (.buildInput input) fun input => .bind_gives (.buildChooser c) fun c _ _ hc =>
      .bind_gives (.orDefault hc) fun c _ _ hc => .bind .limit fun _ =>
        .bind (.outcome hc _) fun _ => .pure _
  | start name e file =>
    refine .bind_gives (.buildChooser e) fun c _ _ hc => .bind_gives (.orDefault hc)
      fun c m _ hc => .bind (.modifyGet (fun _ => rfl) ?_) fun _ => .pure _
    exact fun s hs hm => V.putGenerator hs h (V.free_mono hm hc)
  | generate name e =>
    exact .bind_gives (.findGenerator h) fun g _ _ hg => .bind (.buildInput e) fun _ =>
      .bind .limit fun _ => .bind (.outcome hg _) fun _ => .pure _
  | generateMany name es =>
    exact .bind_gives (.findGenerator h) fun g _ _ hg => .bind (.mapM .buildInput es) fun _ =>
      .bind .limit fun _ => .bind (.outcome hg _) fun _ => .pure _
  | compile name text store =>
    exact .bind (.find _ _) fun _ => .bind .limit fun _ => .bind (.heed _) fun _ => .keepTree _ _
  | draw name stop =>
    exact .bind_gives (.findGenerator h) fun g _ _ hg => .bind (.drawFrom hg stop) fun _ => .pure _
  | draws stops =>
    exact .bind_gives (.orDefault (by simp)) fun c _ _ hc => .bind (.mapM (.drawFrom hc) stops)
      fun _ => .pure _

theorem trees (c : TreeCommand) : V.Keeps n c.act := by
  cases c with
  | display e store described =>
    exact .bind (.build e) fun _ => .bind (.storeTree _ _) fun _ => .pure _
  | compare a b => exact .bind (.build a) fun _ => .bind (.build b) fun _ => .pure _
  | distinct es => exact .bind (.buildDistinct es) fun _ => .pure _
  | revise e r =>
    refine .bind (.build e) fun t => .bind (.buildRevision r) fun r => ?_
    split
    · exact .pure _
    · exact .throw _

end Keeps

end Invariant

end Spintax.Session
