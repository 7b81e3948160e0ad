import Spintax.Evaluation

/-!
# Spintax.Proofs.EvaluationCorrect

The meaning of a tree by recursion on the tree, and the evaluator with its list of waiting trees.

* `Meaning`: a text or a fault, the bounds that were asked for, and the source afterwards.
* `denote`: the meaning of a tree. A pattern takes its parts from left to right, a block asks for
  one pick and takes the option at that place.
* `evaluateAll_cons`: with any trees waiting and any text made, the evaluator does what the tree
  in front means and goes on.
* `logged`: a source that also writes down the bounds it is asked for.
* `evaluate_eq_denote`: the evaluator gives the meaning, for every tree and every source.
-/

namespace Spintax
namespace Evaluation

/-- What comes of a tree, also of one that is at fault midway. -/
structure Meaning (σ ε : Type) where
  result : Except (Fault ε) String
  /-- the bounds of all picks that were asked for, in order -/
  bounds : List Int
  source : σ

variable {σ ε : Type}

/-- The next meaning after this one, unless this one is a fault. -/
def Meaning.andThen (m : Meaning σ ε) (next : σ → Meaning σ ε) : Meaning σ ε :=
  match m.result with
  | .error _ => m
  | .ok text =>
    let m' := next m.source
    ⟨m'.result.map (text ++ ·), m.bounds ++ m'.bounds, m'.source⟩

mutual

def denote (draw : Source σ ε) : Tree → σ → Meaning σ ε
  | .text content _, s => ⟨.ok content, [], s⟩
  | .pattern first rest _, s => (denote draw first s).andThen (denoteAll draw rest)
  | .block first rest _, s =>
    let bound : Int := (rest.length + 1 : Nat)
    match draw s bound with
    | (.error e, s') => ⟨.error (.source e), [bound], s'⟩
    | (.ok pick, s') =>
      match pick? (denote draw first :: denoteEach draw rest) pick with
      | none => ⟨.error (.outOfRange pick), [bound], s'⟩
      | some meaning =>
        let m := meaning s'
        { m with bounds := bound :: m.bounds }
  | .bare l, s => ⟨.error (.notEvaluable (Tree.bare l).typeName), [], s⟩
  | .value v, s => ⟨.error (.notEvaluable v.typeName), [], s⟩

/-- The meanings of all trees, one after the other. -/
def denoteAll (draw : Source σ ε) : List Tree → σ → Meaning σ ε
  | [], s => ⟨.ok "", [], s⟩
  | t :: ts, s => (denote draw t s).andThen (denoteAll draw ts)

def denoteEach (draw : Source σ ε) : List Tree → List (σ → Meaning σ ε)
  | [] => []
  | t :: ts => denote draw t :: denoteEach draw ts

end

theorem denoteEach_eq (draw : Source σ ε) (ts : List Tree) :
    denoteEach draw ts = ts.map (denote draw) := by
  induction ts with
  | nil => rfl
  | cons t ts ih => simp [denoteEach, ih]

theorem pick?_map {α β : Type} (f : α → β) (xs : List α) (i : Int) :
    pick? (xs.map f) i = (pick? xs i).map f := by
  unfold pick?
  rw [List.length_map]
  split
  · exact List.getElem?_map
  · split
    · exact List.getElem?_map
    · rfl

theorem denote_block (draw : Source σ ε) (first : Tree) (rest : List Tree) (l : Location)
    (s : σ) :
    denote draw (.block first rest l) s =
      match draw s (first :: rest).length with
      | (.error e, s') => ⟨.error (.source e), [((first :: rest).length : Int)], s'⟩
      | (.ok pick, s') =>
        match pick? (first :: rest) pick with
        | none => ⟨.error (.outOfRange pick), [((first :: rest).length : Int)], s'⟩
        | some t =>
          let m := denote draw t s'
          { m with bounds := (first :: rest).length :: m.bounds } := by
  rw [denote, denoteEach_eq, ← List.map_cons]
  simp only [pick?_map, List.length_cons]
  cases draw s ((rest.length + 1 : Nat) : Int) with
  | mk r s' =>
    cases r with
    | error e => rfl
    | ok pick =>
      simp only
      cases pick? (first :: rest) pick <;> rfl

/-- The evaluator with the text made so far and the trees waiting behind a meaning. -/
def resume (draw : Source σ ε) (m : Meaning σ ε) (waiting : List Tree) (made : String) :
    Except (Fault ε) String × σ :=
  match m.result with
  | .ok text => evaluateAll draw waiting m.source (made ++ text)
  | .error e => (.error e, m.source)

theorem resume_andThen (draw : Source σ ε) (m : Meaning σ ε) (next : σ → Meaning σ ε)
    (waiting : List Tree) (made : String) :
    resume draw (m.andThen next) waiting made =
      match m.result with
      | .ok text => resume draw (next m.source) waiting (made ++ text)
      | .error e => (.error e, m.source) := by
  cases hm : m.result with
  | error e => simp only [Meaning.andThen, hm, resume]
  | ok text =>
    simp only [Meaning.andThen, hm, resume]
    cases (next m.source).result with
    | error e => rfl
    | ok more => simp only [Except.map, String.append_assoc]

/-- The trees in front, when each of them is evaluated as it means. -/
theorem evaluateAll_append_of_each (draw : Source σ ε) {ts : List Tree}
    (h : ∀ t ∈ ts, ∀ waiting s made,
      evaluateAll draw (t :: waiting) s made = resume draw (denote draw t s) waiting made)
    (waiting : List Tree) (s : σ) (made : String) :
    evaluateAll draw (ts ++ waiting) s made = resume draw (denoteAll draw ts s) waiting made := by
  induction ts generalizing s made with
  | nil => simp [denoteAll, resume]
  | cons t ts ih =>
    rw [List.cons_append, h t (by simp), denoteAll, resume_andThen, resume]
    cases (denote draw t s).result with
    | error e => rfl
    | ok text => exact ih (fun u hu => h u (by simp [hu])) _ _

/-- The tree in front is evaluated as it means, whatever is waiting behind it. The induction is on
that tree: a pattern puts its parts in its place, a block the option that was drawn. -/
theorem evaluateAll_cons (draw : Source σ ε) (t : Tree) :
    ∀ (waiting : List Tree) (s : σ) (made : String),
      evaluateAll draw (t :: waiting) s made = resume draw (denote draw t s) waiting made := by
  induction t with
  | text content l =>
    intro waiting s made
    rw [evaluateAll, denote, resume]
  | pattern first rest l hf hr =>
    intro waiting s made
    have hall : ∀ u ∈ first :: rest, ∀ waiting s made,
        evaluateAll draw (u :: waiting) s made = resume draw (denote draw u s) waiting made := by
      intro u hu
      rcases List.mem_cons.1 hu with rfl | hu
      · exact hf
      · exact hr u hu
    rw [evaluateAll, ← List.cons_append, evaluateAll_append_of_each draw hall]
    rfl
  | block first rest l hf hr =>
    intro waiting s made
    rw [evaluateAll, denote_block]
    rcases draw s (first :: rest).length with ⟨e | pick, s'⟩
    · rfl
    · simp only
      split
      · rename_i hp
        rw [hp]
        rfl
      · rename_i option hp
        rw [hp]
        rcases List.mem_cons.1 (mem_of_pick? hp) with rfl | hm
        · exact hf waiting s' made
        · exact hr option hm waiting s' made
  | bare l =>
    intro waiting s made
    rw [evaluateAll, denote, resume]
  | value v =>
    intro waiting s made
    rw [evaluateAll, denote, resume]

/-! ## The bounds that are asked for -/

/-- The same source, with a list of the bounds it was asked for. -/
def logged (draw : Source σ ε) : Source (σ × List Int) ε :=
  fun (s, log) bound => ((draw s bound).1, (draw s bound).2, log ++ [bound])

def Meaning.withLog (m : Meaning σ ε) (log : List Int) : Meaning (σ × List Int) ε :=
  ⟨m.result, m.bounds, m.source, log ++ m.bounds⟩

theorem andThen_withLog {m : Meaning σ ε} {next : σ → Meaning σ ε}
    {next' : σ × List Int → Meaning (σ × List Int) ε}
    (h : ∀ s log, next' (s, log) = (next s).withLog log) (log : List Int) :
    (m.withLog log).andThen next' = (m.andThen next).withLog log := by
  cases hm : m.result with
  | error e => simp only [Meaning.andThen, Meaning.withLog, hm]
  | ok text => simp only [Meaning.andThen, Meaning.withLog, hm, h, List.append_assoc]

theorem denoteAll_logged {draw : Source σ ε} {ts : List Tree}
    (h : ∀ t ∈ ts, ∀ s log, denote (logged draw) t (s, log) = (denote draw t s).withLog log)
    (s : σ) (log : List Int) :
    denoteAll (logged draw) ts (s, log) = (denoteAll draw ts s).withLog log := by
  induction ts generalizing s log with
  | nil => simp [denoteAll, Meaning.withLog]
  | cons t ts ih =>
    rw [denoteAll, h t (by simp)]
    exact andThen_withLog (fun s log => ih (fun u hu => h u (by simp [hu])) s log) log

theorem denote_logged (draw : Source σ ε) (t : Tree) :
    ∀ (s : σ) (log : List Int),
      denote (logged draw) t (s, log) = (denote draw t s).withLog log := by
  induction t with
  | text content l =>
    intro s log
    simp [denote, Meaning.withLog]
  | pattern first rest l hf hr =>
    intro s log
    rw [denote, hf]
    exact andThen_withLog (denoteAll_logged hr) log
  | block first rest l hf hr =>
    intro s log
    rw [denote_block, denote_block, logged]
    rcases draw s (first :: rest).length with ⟨e | pick, s'⟩
    · rfl
    · simp only
      cases hp : pick? (first :: rest) pick with
      | none => rfl
      | some option =>
        have ho : denote (logged draw) option (s', log ++ [((first :: rest).length : Int)]) =
            (denote draw option s').withLog (log ++ [((first :: rest).length : Int)]) := by
          rcases List.mem_cons.1 (mem_of_pick? hp) with rfl | hm
          · exact hf s' _
          · exact hr option hm s' _
        simp only [ho, Meaning.withLog, List.append_assoc, List.cons_append, List.nil_append]
  | bare l =>
    intro s log
    simp [denote, Meaning.withLog]
  | value v =>
    intro s log
    simp [denote, Meaning.withLog]

/-- Negative picks count from the end. -/
theorem pick?_neg {α : Type} (xs : List α) (i : Nat) :
    pick? xs (-(i + 1)) = xs.reverse[i]? := by
  have h₁ : ¬ (0 : Int) ≤ -(i + 1) := by omega
  rw [pick?, if_neg h₁]
  by_cases h : i < xs.length
  · have h₂ : -(xs.length : Int) ≤ -(i + 1) := by omega
    have h₃ : ((xs.length : Int) + -(i + 1)).toNat = xs.length - 1 - i := by omega
    rw [if_pos h₂, h₃, List.getElem?_reverse h]
  · have h₂ : ¬ -(xs.length : Int) ≤ -(i + 1) := by omega
    rw [if_neg h₂, List.getElem?_eq_none (by simpa using h)]

theorem evaluate_eq (draw : Source σ ε) (t : Tree) (s : σ) :
    evaluate draw t s = ((denote draw t s).result, (denote draw t s).source) := by
  rw [evaluate, evaluateAll_cons, resume]
  cases (denote draw t s).result with
  | error e => rfl
  | ok text => simp [evaluateAll]

/-- The evaluator gives the meaning of the tree: the same text or fault, and the same source
afterwards. It asks for the same bounds in the same order, up to a fault too. Picks that are not
negative count from the first option, the others from the last. -/
theorem evaluate_eq_denote (draw : Source σ ε) (t : Tree) (s : σ) :
    evaluate draw t s = ((denote draw t s).result, (denote draw t s).source) ∧
    (∀ log, evaluate (logged draw) t (s, log) =
      ((denote draw t s).result, (denote draw t s).source, log ++ (denote draw t s).bounds)) ∧
    ∀ (options : List Tree) (i : Nat),
      pick? options i = options[i]? ∧ pick? options (-(i + 1)) = options.reverse[i]? := by
  refine ⟨evaluate_eq draw t s, ?_, fun options i => ⟨pick?_natCast options i, pick?_neg options i⟩⟩
  intro log
  rw [evaluate_eq, denote_logged]
  rfl

end Evaluation
end Spintax
