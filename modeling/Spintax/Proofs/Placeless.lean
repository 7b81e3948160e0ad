import Mathlib.Data.List.Forall2
import Spintax.Chooser
import Spintax.Proofs.Blame
import Spintax.Proofs.Meanings

/-!
# Spintax.Proofs.Placeless

Places mean nothing. Two lists of tokens that differ in their places only are read in lockstep: to
trees that differ in their places only, or to the same fault, put down to the token at the same
index. Two such trees are evaluated alike.

* `Token.sense`: what a token is, wherever it stands.
* `Agree R`: results that are related by `R`, or the same error.
* `State.Alike`: two parsers at work that differ in places only.
* `step_agree`, `run_agree`, `finish_agree`: they stay so, or stop for the same reason.
* `places_mean_nothing`: parsers and the evaluator.
-/

namespace Spintax

open Spintax.Tree

/-- All of a token but its place. -/
def Token.sense (t : Token) : Kind × String :=
  (t.kind, t.value)

namespace Parser

/-- Two results, or the same error twice. -/
inductive Agree {ε α : Type} (R : α → α → Prop) : Except ε α → Except ε α → Prop where
  | ok {a b : α} : R a b → Agree R (.ok a) (.ok b)
  | error {e : ε} : Agree R (.error e) (.error e)

/-- Trees that are the same, one by one. -/
abbrev SameAll (ts us : List Tree) : Prop :=
  List.Forall₂ (fun t u => t.same u = true) ts us

structure Frame.Alike (f g : Frame) : Prop where
  index_eq : f.index = g.index
  before : SameAll f.before g.before
  options : SameAll f.options g.options

/-- Two parsers at work that differ in places only. -/
structure State.Alike (s s' : State) : Prop where
  position_eq : s.position = s'.position
  depth_eq : s.depth = s'.depth
  frames : List.Forall₂ Frame.Alike s.frames s'.frames
  parts : SameAll s.parts s'.parts

section Trees

variable {newest newest' : Tree} {older older' : List Tree}

/-- The first and the other elements of two reversed lists of which the ones are related to the
others. -/
theorem exists_reverse (h : SameAll (newest :: older) (newest' :: older')) :
    ∃ first rest first' rest', (newest :: older).reverse = first :: rest ∧
      (newest' :: older').reverse = first' :: rest' ∧
      sameAll (first :: rest) (first' :: rest') := by
  obtain ⟨first, rest, hr⟩ := List.exists_cons_of_ne_nil
    (List.reverse_ne_nil_iff.2 (List.cons_ne_nil newest older))
  obtain ⟨first', rest', hr'⟩ := List.exists_cons_of_ne_nil
    (List.reverse_ne_nil_iff.2 (List.cons_ne_nil newest' older'))
  refine ⟨first, rest, first', rest', hr, hr', ?_⟩
  rw [sameAll_iff, ← hr, ← hr']
  exact List.forall₂_reverse_iff.2 h

theorem patternOf_same (h : SameAll (newest :: older) (newest' :: older')) :
    (patternOf newest older).same (patternOf newest' older') := by
  obtain ⟨first, rest, first', rest', hr, hr', hs⟩ := exists_reverse h
  rw [patternOf_eq hr, patternOf_eq hr']
  exact same_pattern_iff.2 ⟨_, _, _, rfl, hs⟩

theorem blockOf_same (h : SameAll (newest :: older) (newest' :: older')) (l l' : Location) :
    (blockOf newest older l).same (blockOf newest' older' l') := by
  obtain ⟨first, rest, first', rest', hr, hr', hs⟩ := exists_reverse h
  rw [blockOf_eq hr, blockOf_eq hr']
  exact same_block_iff.2 ⟨_, _, _, rfl, hs⟩

end Trees

namespace State

variable {limit : Nat} {s s' : State} {t t' : Token}

theorem Alike.refuse (h : s.Alike s') (value : String) : s.refuse value = s'.refuse value := by
  rw [State.refuse, State.refuse, h.position_eq, h.depth_eq]

theorem openBlock_agree (h : s.Alike s') :
    Agree Alike (s.openBlock limit t) (s'.openBlock limit t') := by
  obtain ⟨hposition, hdepth, hframes, hparts⟩ := h
  rw [openBlock, openBlock, hposition, hdepth]
  split
  · exact .error
  · exact .ok ⟨rfl, rfl, .cons ⟨rfl, hparts, .nil⟩ hframes, .nil⟩

theorem nextOption_agree (h : s.Alike s') (hv : t.value = t'.value) :
    Agree Alike (s.nextOption t) (s'.nextOption t') := by
  have hrefuse := h.refuse t.value
  obtain ⟨position, depth, frames, parts⟩ := s
  obtain ⟨position', depth', frames', parts'⟩ := s'
  obtain ⟨hposition, hdepth, hframes, hparts⟩ := h
  simp only [nextOption]
  cases hparts with
  | nil => rw [hrefuse, hv]; exact .error
  | cons hp hps =>
    cases hframes with
    | nil => rw [hrefuse, hv]; exact .error
    | cons hf hfs =>
      obtain ⟨hindex, hbefore, hoptions⟩ := hf
      have hoption := patternOf_same (.cons hp hps)
      exact .ok ⟨congrArg (· + 1) hposition, hdepth,
        .cons ⟨hindex, hbefore, .cons hoption hoptions⟩ hfs, .nil⟩

theorem closeBlock_agree (h : s.Alike s') (hv : t.value = t'.value) :
    Agree Alike (s.closeBlock t) (s'.closeBlock t') := by
  have hrefuse := h.refuse t.value
  obtain ⟨position, depth, frames, parts⟩ := s
  obtain ⟨position', depth', frames', parts'⟩ := s'
  obtain ⟨hposition, hdepth, hframes, hparts⟩ := h
  simp only [closeBlock]
  cases hparts with
  | nil => rw [hrefuse, hv]; exact .error
  | cons hp hps =>
    cases hframes with
    | nil => rw [hrefuse, hv]; exact .error
    | cons hf hfs =>
      obtain ⟨-, hbefore, hoptions⟩ := hf
      have hblock := blockOf_same (.cons (patternOf_same (.cons hp hps)) hoptions)
      exact .ok ⟨congrArg (· + 1) hposition, congrArg (· - 1) hdepth, hfs,
        .cons (hblock _ _) hbefore⟩

/-- One token each, the same but for its place. -/
theorem step_agree (h : s.Alike s') (ht : t.sense = t'.sense) :
    Agree Alike (s.step limit t) (s'.step limit t') := by
  obtain ⟨hk, hv⟩ := Prod.mk.inj ht
  rw [step, step, ← hk]
  cases t.kind with
  | text =>
    refine .ok ⟨congrArg (· + 1) h.position_eq, h.depth_eq, h.frames, .cons ?_ h.parts⟩
    rw [hv]
    exact beq_self_eq_true t'.value
  | opening => exact openBlock_agree h
  | bar => exact nextOption_agree h hv
  | closing => exact closeBlock_agree h hv

/-- All tokens. The runs go on together up to the first token that stops them both. -/
theorem run_agree {ts us : List Token} (h : s.Alike s')
    (hts : ts.map Token.sense = us.map Token.sense) :
    Agree Alike (s.run limit ts) (s'.run limit us) := by
  induction ts generalizing us s s' with
  | nil =>
    obtain rfl := List.map_eq_nil_iff.1 hts.symm
    exact .ok h
  | cons t ts ih =>
    obtain ⟨u, us, rfl, hu, hus⟩ := List.map_eq_cons_iff.1 hts.symm
    have hstep : Agree Alike (s.step limit t) (s'.step limit u) := step_agree h hu.symm
    rw [run_cons, run_cons]
    generalize s.step limit t = r, s'.step limit u = r' at hstep ⊢
    cases hstep with
    | ok h₁ => exact ih h₁ hus.symm
    | error => exact .error

theorem finish_agree (h : s.Alike s') :
    Agree (fun t u => t.same u = true) s.finish s'.finish := by
  obtain ⟨position, depth, frames, parts⟩ := s
  obtain ⟨position', depth', frames', parts'⟩ := s'
  obtain ⟨hposition, hdepth, hframes, hparts⟩ := h
  cases hparts with
  | nil =>
    obtain rfl : position = position' := hposition
    exact .error
  | cons hp hps =>
    cases hframes with
    | nil => exact .ok (patternOf_same (.cons hp hps))
    | cons hf hfs =>
      simp only [finish, hf.index_eq]
      exact .error

end State

variable {p p' : Parser}

theorem parse_agree (htokens : p.tokens.map Token.sense = p'.tokens.map Token.sense)
    (hlimit : p.limit = p'.limit) (hposition : p.position = p'.position)
    (hdepth : p.depth = p'.depth) :
    Agree (fun t u => t.same u = true) p.parse.1 p'.parse.1 ∧
      p.parse.2.position = p'.parse.2.position ∧ p.parse.2.depth = p'.parse.2.depth := by
  have hstart : (State.start p.position p.depth).Alike (State.start p'.position p'.depth) :=
    ⟨hposition, hdepth, .nil, .nil⟩
  have hdrop : (p.tokens.drop p.position).map Token.sense =
      (p'.tokens.drop p'.position).map Token.sense := by
    rw [List.map_drop, List.map_drop, htokens, hposition]
  have hrun : Agree State.Alike
      ((State.start p.position p.depth).run p.limit (p.tokens.drop p.position))
      ((State.start p'.position p'.depth).run p.limit (p'.tokens.drop p'.position)) :=
    State.run_agree hstart hdrop
  rw [parse, parse, ← hlimit]
  generalize (State.start p.position p.depth).run p.limit (p.tokens.drop p.position) = r,
    (State.start p'.position p'.depth).run p.limit (p'.tokens.drop p'.position) = r' at hrun ⊢
  cases hrun with
  | ok h => exact ⟨State.finish_agree h, h.position_eq, h.depth_eq⟩
  | error => exact ⟨.error, rfl, rfl⟩

/-- Two parsers with tokens of the same kinds and values, wherever these stand, and with the same
limit, at the same position and depth. They give trees that are the same, or reports with the same
text of the same fault, which blames the token at the same index or none; and they stop at the same
position and depth. Trees that are the same become the same text or fail in the same way, whatever
the source, and ask it for the same bounds. -/
theorem places_mean_nothing (htokens : p.tokens.map Token.sense = p'.tokens.map Token.sense)
    (hlimit : p.limit = p'.limit) (hposition : p.position = p'.position)
    (hdepth : p.depth = p'.depth) :
    ((∃ t t', p.report.1.value = .ok t ∧ p'.report.1.value = .ok t' ∧ t.same t') ∨
      ∃ f, p.parse.1 = .error f ∧ p'.parse.1 = .error f ∧
        p.report.1.value = .error (p.diagnostic f) ∧
        p'.report.1.value = .error (p'.diagnostic f) ∧
        (p.diagnostic f).text = (p'.diagnostic f).text) ∧
    (p.parse.2.position = p'.parse.2.position ∧ p.parse.2.depth = p'.parse.2.depth) ∧
    ∀ t t' : Tree, t.Valueless → t.same t' →
      ∀ {σ ε : Type} (draw : Source σ ε) (s : σ),
        Evaluation.evaluate draw t s = Evaluation.evaluate draw t' s ∧
        ∀ log, Evaluation.evaluate (Evaluation.logged draw) t (s, log) =
          Evaluation.evaluate (Evaluation.logged draw) t' (s, log) := by
  obtain ⟨hagree, hafter⟩ := parse_agree htokens hlimit hposition hdepth
  refine ⟨?_, hafter, ?_⟩
  · generalize hp : p.parse.1 = r, hp' : p'.parse.1 = r' at hagree
    cases hagree with
    | ok hs => exact .inl ⟨_, _, report_of_ok hp, report_of_ok hp', hs⟩
    | error =>
      refine .inr ⟨_, rfl, rfl, report_of_error hp, report_of_error hp', ?_⟩
      rw [diagnostic_text, diagnostic_text]
  · intro t t' hv hs σ ε draw s
    have hlogged (log : List Int) : Evaluation.evaluate (Evaluation.logged draw) t (s, log) =
        Evaluation.evaluate (Evaluation.logged draw) t' (s, log) := by
      rw [Evaluation.evaluate_eq, Evaluation.evaluate_eq, Evaluation.denote_of_same t hv t' hs]
    refine ⟨?_, hlogged⟩
    rw [Evaluation.evaluate_eq, Evaluation.evaluate_eq, Evaluation.denote_of_same t hv t' hs]

/-- A block whose second option is missing, at two places and in two files: the same text of the
same fault, in two reports that differ. And a block of a text and of a node of no kind, at any two
places. -/
theorem places_mean_nothing_elsewhere :
    let tokens (l : Location) : List Token := [⟨.opening, "\x7b", l⟩, ⟨.text, "a", l⟩,
      ⟨.bar, "|", l⟩, ⟨.closing, "\x7d", l⟩]
    let p := fresh 64 none (tokens ⟨1, 2, 3, 4, none⟩)
    let p' := fresh 64 (some "f") (tokens ⟨5, 6, 7, 8, some "g"⟩)
    let tree (l : Location) : Tree := .block (.text "a" l) [.bare l] l
    (p.tokens.map Token.sense = p'.tokens.map Token.sense ∧
      ∃ f, p.parse.1 = .error f ∧ p'.parse.1 = .error f ∧
        (p.diagnostic f).text = (p'.diagnostic f).text ∧ p.diagnostic f ≠ p'.diagnostic f) ∧
    ∀ l l' seed, (tree l).Valueless ∧ (tree l).same (tree l') ∧
      Evaluation.evaluate Chooser.draw (tree l) (.seeded (.ofSeed seed)) =
        Evaluation.evaluate Chooser.draw (tree l') (.seeded (.ofSeed seed)) := by
  intro tokens p p' tree
  have hvalueless (l : Location) : (tree l).Valueless := by
    rintro v (_ | ⟨hc, hw⟩)
    simp only [tree, children, List.mem_cons, List.not_mem_nil, or_false] at hc
    rcases hc with rfl | rfl
    · rcases hw with _ | ⟨hc, -⟩
      exact absurd hc List.not_mem_nil
    · rcases hw with _ | ⟨hc, -⟩
      exact absurd hc List.not_mem_nil
  obtain ⟨hreports, -, heval⟩ := @places_mean_nothing p p' rfl rfl rfl rfl
  refine ⟨⟨rfl, ?_⟩, fun l l' seed => ⟨hvalueless l, rfl, ?_⟩⟩
  · rcases hreports with ⟨t, t', ht, -⟩ | ⟨f, hp, hp', -, -, htext⟩
    · cases ht
    · obtain rfl : (⟨.emptyOption "\x7d", some 3⟩ : Fault) = f := Except.error.inj hp
      exact ⟨_, hp, hp', htext, by decide⟩
  · exact (heval _ _ (hvalueless l) rfl _ _).1

end Parser
end Spintax
