import Spintax.Generation
import Spintax.Proofs.Cuts
import Spintax.Proofs.EvaluationCorrect
import Spintax.Proofs.Spelling

/-!
# Spintax.Proofs.Batches

Many inputs at once, and the same inputs one by one with the same source. A batch is the row of its
runs, cut off behind the first one that fails, and a run that fails before evaluation leaves the
source alone.

* `runEach`, `passed`: the outcomes of single runs, each from where the one before it has left the
  source, and the source behind them.
* `bounds`, `boundsEach`: the bounds that runs ask for.
* `ComesTo`: a batch comes to a result by some runs and nothing else.
* `exists_first_fault`: either all runs have a text, or there is a first one that has none.
* `batch_in_order`: what a batch comes to.
-/

namespace Spintax.Generation

open Evaluation (denote logged)

variable {σ ε : Type} (draw : Source σ ε) (limit : Nat) (file : Option String)

/-- The outcomes of single runs. One that fails does not keep the later ones from being made. -/
def runEach : List Input → σ → List (Outcome σ ε String)
  | [], _ => []
  | input :: inputs, s =>
    let one := run draw limit file input s
    one :: runEach inputs one.source

/-- The source behind the single runs. -/
def passed (inputs : List Input) (s : σ) : σ :=
  inputs.foldl (fun s input => (run draw limit file input s).source) s

/-- The bounds of all picks that a run asks for, up to a fault too. -/
def bounds (input : Input) (s : σ) : List Int :=
  match (input.toTree limit file : Recorded (Except (Fault ε) Tree)).value with
  | .ok t => (denote draw t s).bounds
  | .error _ => []

def boundsEach : List Input → σ → List Int
  | [], _ => []
  | input :: inputs, s => bounds draw limit file input s ++
      boundsEach inputs (run draw limit file input s).source

/-- The results of single runs. -/
def results (inputs : List Input) (s : σ) : List (Except (Fault ε) String) :=
  (runEach draw limit file inputs s).map fun o => o.result

/-- What is heard of single runs. -/
def heard (inputs : List Input) (s : σ) : List Event :=
  (runEach draw limit file inputs s).flatMap fun o => o.events

/-- A batch on `inputs` comes to `result` by single runs on `made`, one after the other, and by
nothing else: the source, the bounds it was asked for and the records are those of these runs. -/
structure ComesTo (inputs : List Input) (s : σ) (result : Except (Fault ε) (List String))
    (made : List Input) : Prop where
  outcome : runMany draw limit file inputs s =
    ⟨result, passed draw limit file made s, heard draw limit file made s⟩
  asked : ∀ log, runMany (logged draw) limit file inputs (s, log) =
    ⟨result, (passed draw limit file made s, log ++ boundsEach draw limit file made s),
      heard draw limit file made s⟩

variable {draw limit file} {input : Input} {inputs : List Input} {s : σ} {texts : List String}
  {f : Fault ε}

/-! ## One run -/

/-- An input without a tree draws nothing. -/
theorem run_of_no_tree
    (h : (input.toTree limit file : Recorded (Except (Fault ε) Tree)).value = .error f) :
    run draw limit file input s =
      ⟨.error f, s, (input.toTree limit file : Recorded (Except (Fault ε) Tree)).events⟩ := by
  rw [run, h]

theorem run_of_tree {t : Tree}
    (h : (input.toTree limit file : Recorded (Except (Fault ε) Tree)).value = .ok t) :
    run draw limit file input s =
      ⟨(denote draw t s).result.mapError .evaluation, (denote draw t s).source,
        (input.toTree limit file : Recorded (Except (Fault ε) Tree)).events⟩ := by
  simp only [run, h, Evaluation.evaluate_eq]

theorem exists_of_mapError {ε₁ ε₂ α : Type} {x : Except ε₁ α} {g : ε₁ → ε₂} {e : ε₂}
    (h : x.mapError g = .error e) : ∃ e', x = .error e' ∧ g e' = e := by
  cases x with
  | error e' => exact ⟨e', rfl, Except.error.inj h⟩
  | ok a => cases h

/-- What keeps an input from having a tree. -/
theorem exists_of_no_tree
    (h : (input.toTree limit file : Recorded (Except (Fault ε) Tree)).value = .error f) :
    (∃ d, f = .rejected d) ∨ ∃ typeName, f = .notTemplate typeName := by
  unfold Input.toTree at h
  split at h
  · obtain ⟨d, -, rfl⟩ := exists_of_mapError h
    exact .inl ⟨d, rfl⟩
  · obtain ⟨d, -, rfl⟩ := exists_of_mapError h
    exact .inl ⟨d, rfl⟩
  · cases h
    exact .inr ⟨_, rfl⟩
  · cases h

/-- A run fails before evaluation, and has drawn nothing, or in evaluation, which has moved the
source on. -/
theorem run_fault_cases (h : (run draw limit file input s).result = .error f) :
    ((∃ d, f = .rejected d) ∨ ∃ typeName, f = .notTemplate typeName) ∧
        (run draw limit file input s).source = s ∧ bounds draw limit file input s = [] ∨
      ∃ t e, (input.toTree limit file : Recorded (Except (Fault ε) Tree)).value = .ok t ∧
        f = .evaluation e ∧
        Evaluation.evaluate draw t s = (.error e, (run draw limit file input s).source) ∧
        bounds draw limit file input s = (denote draw t s).bounds := by
  cases ht : (input.toTree limit file : Recorded (Except (Fault ε) Tree)).value with
  | error f' =>
    rw [run_of_no_tree ht] at h ⊢
    cases h
    exact .inl ⟨exists_of_no_tree ht, rfl, by rw [bounds, ht]⟩
  | ok t =>
    rw [run_of_tree ht] at h ⊢
    obtain ⟨e, he, rfl⟩ := exists_of_mapError h
    exact .inr ⟨t, e, rfl, rfl, by rw [Evaluation.evaluate_eq, he], by rw [bounds, ht]⟩

theorem run_logged (draw : Source σ ε) (limit : Nat) (file : Option String) (input : Input) (s : σ)
    (log : List Int) :
    run (logged draw) limit file input (s, log) =
      ⟨(run draw limit file input s).result,
        ((run draw limit file input s).source, log ++ bounds draw limit file input s),
        (run draw limit file input s).events⟩ := by
  cases h : (input.toTree limit file : Recorded (Except (Fault ε) Tree)).value with
  | error f => rw [run_of_no_tree h, run_of_no_tree h, bounds, h, List.append_nil]
  | ok t =>
    rw [run_of_tree h, run_of_tree h, bounds, h, Evaluation.denote_logged]
    rfl

/-! ## Runs one after the other -/

section Rows

variable (draw limit file)

theorem passed_append (before inputs : List Input) (s : σ) :
    passed draw limit file (before ++ inputs) s =
      passed draw limit file inputs (passed draw limit file before s) :=
  List.foldl_append

theorem runEach_append (before inputs : List Input) (s : σ) :
    runEach draw limit file (before ++ inputs) s =
      runEach draw limit file before s ++
        runEach draw limit file inputs (passed draw limit file before s) := by
  induction before generalizing s with
  | nil => rfl
  | cons input before ih =>
    rw [List.cons_append, runEach, runEach, ih]
    rfl

theorem heard_append (before inputs : List Input) (s : σ) :
    heard draw limit file (before ++ inputs) s =
      heard draw limit file before s ++
        heard draw limit file inputs (passed draw limit file before s) := by
  rw [heard, runEach_append, List.flatMap_append]
  rfl

theorem passed_logged (inputs : List Input) (s : σ) (log : List Int) :
    passed (logged draw) limit file inputs (s, log) =
      (passed draw limit file inputs s, log ++ boundsEach draw limit file inputs s) := by
  induction inputs generalizing s log with
  | nil => simp [passed, boundsEach]
  | cons input inputs ih =>
    rw [passed, List.foldl_cons, run_logged, boundsEach, ← List.append_assoc]
    exact ih _ _

/-- Whether the bounds are written down makes no other difference. -/
theorem runEach_logged (inputs : List Input) (s : σ) (log : List Int) :
    results (logged draw) limit file inputs (s, log) = results draw limit file inputs s ∧
      heard (logged draw) limit file inputs (s, log) = heard draw limit file inputs s := by
  induction inputs generalizing s log with
  | nil => exact ⟨rfl, rfl⟩
  | cons input inputs ih =>
    obtain ⟨hresults, hheard⟩ := ih (run draw limit file input s).source
      (log ++ bounds draw limit file input s)
    simp only [results, heard, runEach, run_logged, List.map_cons, List.flatMap_cons] at *
    rw [hresults, hheard]
    exact ⟨rfl, rfl⟩

end Rows

/-! ## Batches -/

theorem runMany_of_error (h : (run draw limit file input s).result = .error f)
    (after : List Input) :
    runMany draw limit file (input :: after) s =
      ⟨.error f, (run draw limit file input s).source, (run draw limit file input s).events⟩ := by
  simp only [runMany, h]

theorem runMany_of_ok {text : String} (h : (run draw limit file input s).result = .ok text)
    (after : List Input) :
    runMany draw limit file (input :: after) s =
      let more := runMany draw limit file after (run draw limit file input s).source
      ⟨more.result.map (text :: ·), more.source,
        (run draw limit file input s).events ++ more.events⟩ := by
  simp only [runMany, h]

/-- A batch goes on behind inputs that all have a text. The induction is on these inputs. -/
theorem runMany_append (h : results draw limit file inputs s = texts.map .ok)
    (more : List Input) :
    runMany draw limit file (inputs ++ more) s =
      let rest := runMany draw limit file more (passed draw limit file inputs s)
      ⟨rest.result.map (texts ++ ·), rest.source,
        heard draw limit file inputs s ++ rest.events⟩ := by
  induction inputs generalizing s texts with
  | nil =>
    obtain rfl : texts = [] := List.map_eq_nil_iff.1 h.symm
    have hpassed : passed draw limit file [] s = s := rfl
    rw [hpassed, List.nil_append]
    generalize runMany draw limit file more s = rest
    obtain ⟨result, source, events⟩ := rest
    cases result <;> rfl
  | cons input inputs ih =>
    obtain ⟨text, texts, rfl, hone, hmore⟩ := List.map_eq_cons_iff.1 h.symm
    rw [List.cons_append, runMany_of_ok hone.symm, ih hmore.symm]
    simp only [passed, List.foldl_cons, heard, runEach, List.flatMap_cons, List.append_assoc]
    cases (runMany draw limit file more _).result <;> rfl

theorem runMany_of_texts (h : results draw limit file inputs s = texts.map .ok) :
    runMany draw limit file inputs s =
      ⟨.ok texts, passed draw limit file inputs s, heard draw limit file inputs s⟩ := by
  have happend := runMany_append h []
  rw [List.append_nil] at happend
  rw [happend]
  simp [runMany, Except.map]

/-- The first fault ends a batch, whatever inputs come behind. -/
theorem runMany_of_fault {before after : List Input}
    (h : results draw limit file before s = texts.map .ok)
    (hf : (run draw limit file input (passed draw limit file before s)).result = .error f) :
    runMany draw limit file (before ++ input :: after) s =
      ⟨.error f, passed draw limit file (before ++ [input]) s,
        heard draw limit file (before ++ [input]) s⟩ := by
  rw [runMany_append h, runMany_of_error hf, passed_append, heard_append]
  simp [passed, heard, runEach, Except.map]

theorem results_cons {text : String} (hone : (run draw limit file input s).result = .ok text)
    (h : results draw limit file inputs (run draw limit file input s).source = texts.map .ok) :
    results draw limit file (input :: inputs) s = (text :: texts).map .ok := by
  rw [List.map_cons, ← hone, ← h]
  rfl

/-- Either all runs have a text, or there is a first one that has none. -/
theorem exists_first_fault (draw : Source σ ε) (limit : Nat) (file : Option String)
    (inputs : List Input) (s : σ) :
    (∃ texts : List String, results draw limit file inputs s = texts.map .ok) ∨
      ∃ before input after f, ∃ texts : List String, inputs = before ++ input :: after ∧
        results draw limit file before s = texts.map .ok ∧
        (run draw limit file input (passed draw limit file before s)).result = .error f := by
  induction inputs generalizing s with
  | nil => exact .inl ⟨[], rfl⟩
  | cons input inputs ih =>
    cases hone : (run draw limit file input s).result with
    | error f => exact .inr ⟨[], input, inputs, f, [], rfl, rfl, hone⟩
    | ok text =>
      obtain ⟨texts, h⟩ | ⟨before, bad, after, f, texts, rfl, h, hf⟩ :=
        ih (run draw limit file input s).source
      · exact .inl ⟨text :: texts, results_cons hone h⟩
      · exact .inr ⟨input :: before, bad, after, f, text :: texts, rfl, results_cons hone h, hf⟩

theorem comesTo_of_texts (h : results draw limit file inputs s = texts.map .ok) :
    ComesTo draw limit file inputs s (.ok texts) inputs := by
  refine ⟨runMany_of_texts h, fun log => ?_⟩
  obtain ⟨hresults, hheard⟩ := runEach_logged draw limit file inputs s log
  rw [runMany_of_texts (hresults.trans h), passed_logged, hheard]

theorem comesTo_of_fault {before after : List Input}
    (h : results draw limit file before s = texts.map .ok)
    (hf : (run draw limit file input (passed draw limit file before s)).result = .error f) :
    ComesTo draw limit file (before ++ input :: after) s (.error f) (before ++ [input]) := by
  refine ⟨runMany_of_fault h hf, fun log => ?_⟩
  obtain ⟨hresults, -⟩ := runEach_logged draw limit file before s log
  obtain ⟨-, hheard⟩ := runEach_logged draw limit file (before ++ [input]) s log
  have hf' : (run (logged draw) limit file input
      (passed (logged draw) limit file before (s, log))).result = .error f := by
    rw [passed_logged, run_logged, hf]
  rw [runMany_of_fault (hresults.trans h) hf', passed_logged, hheard]

/-- A batch that has its texts is made of runs that have them. -/
theorem results_of_runMany (h : (runMany draw limit file inputs s).result = .ok texts) :
    results draw limit file inputs s = texts.map .ok := by
  obtain ⟨texts', h'⟩ | ⟨before, input, after, f, texts', rfl, h', hf⟩ :=
    exists_first_fault draw limit file inputs s
  · rw [runMany_of_texts h'] at h
    cases h
    exact h'
  · rw [runMany_of_fault h' hf] at h
    cases h

theorem runMany_logged (draw : Source σ ε) (limit : Nat) (file : Option String)
    (inputs : List Input) (s : σ) (log : List Int) :
    (runMany (logged draw) limit file inputs (s, log)).result =
        (runMany draw limit file inputs s).result ∧
      ∃ log', (runMany (logged draw) limit file inputs (s, log)).source =
        ((runMany draw limit file inputs s).source, log') := by
  obtain ⟨texts, h⟩ | ⟨before, input, after, f, texts, rfl, h, hf⟩ :=
    exists_first_fault draw limit file inputs s
  · rw [(comesTo_of_texts h).asked, (comesTo_of_texts h).outcome]
    exact ⟨rfl, _, rfl⟩
  · rw [(comesTo_of_fault h hf).asked, (comesTo_of_fault h hf).outcome]
    exact ⟨rfl, _, rfl⟩

/-- A run on an input without a tree, between two batches, is as if it had not been made. -/
theorem runMany_around {xs ys : List Input} {x : Input} {texts' : List String}
    (hx : (x.toTree limit file : Recorded (Except (Fault ε) Tree)).value = .error f)
    (hxs : (runMany draw limit file xs s).result = .ok texts)
    (hys : (runMany draw limit file ys
      (run draw limit file x (runMany draw limit file xs s).source).source).result = .ok texts') :
    let first := runMany draw limit file xs s
    let failed := run draw limit file x first.source
    let last := runMany draw limit file ys failed.source
    failed.result = .error f ∧ failed.source = first.source ∧
      runMany draw limit file (xs ++ ys) s =
        ⟨.ok (texts ++ texts'), last.source, first.events ++ last.events⟩ := by
  intro first failed last
  have hfailed : failed = ⟨.error f, first.source, _⟩ := run_of_no_tree hx
  have hfirst : first = ⟨.ok texts, passed draw limit file xs s, heard draw limit file xs s⟩ :=
    runMany_of_texts (results_of_runMany hxs)
  have hlast : last = runMany draw limit file ys (passed draw limit file xs s) := by
    simp only [last, hfailed, hfirst]
  have hresult :
      (runMany draw limit file ys (passed draw limit file xs s)).result = .ok texts' := by
    rw [← hlast]
    exact hys
  refine ⟨by rw [hfailed], by rw [hfailed], ?_⟩
  rw [runMany_append (results_of_runMany hxs), hlast, hfirst]
  simp only [hresult, Except.map]

/-- A batch is the row of its runs. Where all of them have a text, it has these texts; otherwise it
fails with the first fault, and what stands behind is neither read nor drawn for. The source is
left, the bounds are asked for and the records are made as by single runs up to there. The run that
fails has asked for nothing unless it has come to evaluation, and then for what evaluation asks for
up to the fault. So a run on an input without a tree, between two batches, makes no difference to
what the two have in common with one batch. -/
theorem batch_in_order (draw : Source σ ε) (limit : Nat) (file : Option String)
    (inputs : List Input) (s : σ) :
    ((∃ texts : List String, results draw limit file inputs s = texts.map .ok) ∨
      ∃ before input after f, ∃ texts : List String, inputs = before ++ input :: after ∧
        results draw limit file before s = texts.map .ok ∧
        (run draw limit file input (passed draw limit file before s)).result = .error f) ∧
    (∀ texts : List String, results draw limit file inputs s = texts.map .ok →
      ComesTo draw limit file inputs s (.ok texts) inputs) ∧
    (∀ before input after f, ∀ texts : List String, inputs = before ++ input :: after →
      results draw limit file before s = texts.map .ok →
      let s' := passed draw limit file before s
      let failed := run draw limit file input s'
      failed.result = .error f →
      ComesTo draw limit file inputs s (.error f) (before ++ [input]) ∧
      (((∃ d, f = .rejected d) ∨ ∃ typeName, f = .notTemplate typeName) ∧
          failed.source = s' ∧ bounds draw limit file input s' = [] ∨
        ∃ t e, (input.toTree limit file : Recorded (Except (Fault ε) Tree)).value = .ok t ∧
          f = .evaluation e ∧ Evaluation.evaluate draw t s' = (.error e, failed.source) ∧
          bounds draw limit file input s' = (denote draw t s').bounds)) ∧
    (∀ xs x ys f, ∀ texts texts' : List String,
      (x.toTree limit file : Recorded (Except (Fault ε) Tree)).value = .error f →
      let first := runMany draw limit file xs s
      let failed := run draw limit file x first.source
      let last := runMany draw limit file ys failed.source
      first.result = .ok texts → last.result = .ok texts' →
      failed.result = .error f ∧ failed.source = first.source ∧
      runMany draw limit file (xs ++ ys) s =
        ⟨.ok (texts ++ texts'), last.source, first.events ++ last.events⟩ ∧
      ∀ log,
        let first := runMany (logged draw) limit file xs (s, log)
        let failed := run (logged draw) limit file x first.source
        let last := runMany (logged draw) limit file ys failed.source
        failed.source = first.source ∧
          (runMany (logged draw) limit file (xs ++ ys) (s, log)).source = last.source) := by
  refine ⟨exists_first_fault draw limit file inputs s, fun texts h => comesTo_of_texts h, ?_, ?_⟩
  · rintro before input after f texts rfl h s' failed hf
    exact ⟨comesTo_of_fault h hf, run_fault_cases hf⟩
  · intro xs x ys f texts texts' hx first failed last hxs hys
    obtain ⟨hfailed, hkept, hboth⟩ := runMany_around hx hxs hys
    refine ⟨hfailed, hkept, hboth, fun log => ?_⟩
    obtain ⟨hfirst, log', hsource⟩ := runMany_logged draw limit file xs s log
    obtain ⟨hlast, -⟩ := runMany_logged draw limit file ys first.source log'
    have hys' : (runMany (logged draw) limit file ys (run (logged draw) limit file x
        (runMany (logged draw) limit file xs (s, log)).source).source).result = .ok texts' := by
      rw [hsource, run_of_no_tree hx, hlast, ← hkept]
      exact hys
    obtain ⟨-, hkept', hboth'⟩ := runMany_around hx (hfirst.trans hxs) hys'
    exact ⟨hkept', by rw [hboth']⟩

/-- A stray closing brace between two blocks, with a source of two picks. The batch fails with one
pick left, and the two blocks alone draw both, with or without a run on the brace in between. -/
theorem batch_in_order_stray_brace :
    let draw : Source (List Int) Unit := fun s _ =>
      match s with
      | [] => (.error (), [])
      | pick :: picks => (.ok pick, picks)
    let block (a b : String) : Input :=
      .tree (.block (.text a .unknown) [.text b .unknown] .unknown)
    let stray : Input := .source "\x7d"
    let batch := runMany draw 1 none [block "a" "b", stray, block "c" "d"] [1, 0]
    let around := runMany draw 1 none [block "a" "b", block "c" "d"] [1, 0]
    ∃ d, batch.result = .error (.rejected d) ∧ batch.source = [0] ∧
      (run draw 1 none stray [0]).source = [0] ∧
      around.result = .ok ["b", "c"] ∧ around.source = [] := by
  intro draw block stray batch around
  have hlexed : Lexed 0 "\x7d".toList [.closing] [] := lexed_iff_cut.2 ⟨by decide, by decide⟩
  obtain ⟨d, hd⟩ : ∃ d, (Template.compile 1 none "\x7d").value = .error d :=
    ⟨_, (Template.compile_of_lexed hlexed 1 none).trans rfl⟩
  have hstray : (stray.toTree 1 none : Recorded (Except (Fault Unit) Tree)).value =
      .error (.rejected d) := by
    simp only [stray, Input.toTree, hd, Except.mapError]
  have hfailed (s : List Int) : (run draw 1 none stray s).result = .error (.rejected d) := by
    rw [run_of_no_tree hstray]
  have hfirst : runMany draw 1 none [block "a" "b"] [1, 0] = ⟨.ok ["b"], [0], []⟩ := by
    rw [runMany_of_ok (by rw [run_of_tree rfl]; rfl), run_of_tree rfl]
    rfl
  have hlast : runMany draw 1 none [block "c" "d"] [0] = ⟨.ok ["c"], [], []⟩ := by
    rw [runMany_of_ok (by rw [run_of_tree rfl]; rfl), run_of_tree rfl]
    rfl
  obtain ⟨-, -, hfault, haround⟩ :=
    batch_in_order draw 1 none [block "a" "b", stray, block "c" "d"] [1, 0]
  have hbefore : results draw 1 none [block "a" "b"] [1, 0] = ["b"].map .ok :=
    results_of_runMany (congrArg Outcome.result hfirst)
  have hpassed : passed draw 1 none [block "a" "b"] [1, 0] = [0] :=
    congrArg Outcome.source ((runMany_of_texts hbefore).symm.trans hfirst)
  obtain ⟨⟨hbatch, -⟩, hcases⟩ :=
    hfault [block "a" "b"] stray [block "c" "d"] _ ["b"] rfl hbefore (hfailed _)
  rw [hpassed] at hcases
  obtain ⟨-, hkept, -⟩ | ⟨t, e, ht, -⟩ := hcases
  · obtain ⟨-, -, hboth, -⟩ := haround [block "a" "b"] stray [block "c" "d"] _ ["b"] ["c"] hstray
      (by rw [hfirst]) (by rw [hfirst, hkept, hlast])
    rw [hfirst, hkept, hlast] at hboth
    refine ⟨d, by simp only [batch, hbatch], ?_, hkept, ?_, ?_⟩
    · simp only [batch, hbatch, passed_append, hpassed]
      exact hkept
    · simp only [around]
      exact congrArg Outcome.result hboth
    · exact congrArg Outcome.source hboth
  · rw [hstray] at ht
    cases ht

end Spintax.Generation
