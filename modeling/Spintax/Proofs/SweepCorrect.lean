import Mathlib.Data.List.Forall2
import Spintax.Proofs.ParserCorrect
import Spintax.Proofs.ScannerLexemes
import Spintax.Proofs.Sweep

/-!
# Spintax.Proofs.SweepCorrect

What becomes of the text of a template, told by one sweep over its characters. The parser, which
counts the open blocks once more, and the sweep take each lexeme in step with one another: they
go on with the same blocks open, or stop at the same place with the same words.
-/

namespace Spintax
namespace Parser

open Sweep (Objection)

/-- The token with this index is the one that starts at `m`. -/
def Shows (p : Parser) (i : Nat) (m : Mark) : Prop :=
  ∃ t, p.tokens[i]? = some t ∧ t.location.line = m.line ∧ t.location.column = m.column ∧
    t.location.file = p.file

theorem shows_token {p : Parser} {i : Nat} {x : Lexeme} {m : Mark}
    (h : p.tokens[i]? = some (x.token p.file m)) : p.Shows i m :=
  ⟨_, h, rfl, rfl, rfl⟩

theorem Shows.diagnostic {p : Parser} {i : Nat} {m : Mark} (h : p.Shows i m) (c : Cause) :
    p.diagnostic ⟨c, some i⟩ = (⟨c.message, m⟩ : Objection).diagnostic p.file := by
  obtain ⟨t, ht, hl, hc, hf⟩ := h
  simp only [Parser.diagnostic, blamed, Option.bind_some, ht, hl, hc, hf, ite_self]
  rfl

/-- A parser and a sweep at the same place. -/
structure Agrees (p : Parser) (s : State) (w : Sweep) : Prop where
  depth : s.depth = w.opens.length
  start : w.mark.offset = 0 ↔ s.position = 0
  outside : s.position = 0 → w.opens = []
  frames : List.Forall₂ (fun f m => p.Shows f.index m) s.frames w.opens
  parts : s.parts = [] ↔ s.position = 0 ∨ w.fresh.isSome
  fresh : ∀ m, w.fresh = some m → 0 < s.position ∧ p.Shows (s.position - 1) m

/-- Both go on, to the point `m` with `d` blocks open, or both stop with the same report. -/
def Lockstep (p : Parser) (m : Mark) (d position : Nat) :
    Except Halt State → Except Objection Sweep → Prop
  | .ok s, .ok w => p.Agrees s w ∧ w.mark = m ∧ w.opens.length = d ∧ s.position = position
  | .error h, .error o => p.diagnostic h.fault = o.diagnostic p.file
  | _, _ => False

/-- There is a tree and nothing to object to, or the fault is the objection. -/
def Told (p : Parser) : Except Fault Tree → Option Objection → Prop
  | .ok _, none => True
  | .error f, some o => p.diagnostic f = o.diagnostic p.file
  | _, _ => False

/-! ## One lexeme -/

section Step

variable {p : Parser} {limit : Nat} {s : State} {w : Sweep}

theorem past_offset_ne_zero (m : Mark) (c : Char) (cs : List Char) :
    (m.past (c :: cs)).offset ≠ 0 := by
  rw [Mark.past_offset, List.length_cons]
  omega

/-- Behind the first token, nothing need be said of the start. -/
theorem agrees_behind (hp : 0 < s.position) (hm : w.mark.offset ≠ 0)
    (depth : s.depth = w.opens.length)
    (frames : List.Forall₂ (fun f m => p.Shows f.index m) s.frames w.opens)
    (parts : s.parts = [] ↔ w.fresh.isSome)
    (fresh : ∀ m, w.fresh = some m → p.Shows (s.position - 1) m) : p.Agrees s w := by
  have hn : s.position ≠ 0 := Nat.ne_of_gt hp
  refine ⟨depth, ?_, ?_, frames, ?_, fun m h => ⟨hp, fresh m h⟩⟩
  · simp only [hm, hn]
  · intro h0
    exact absurd h0 hn
  · simp only [parts, hn, false_or]

/-- The empty pattern in progress stands at the start, or right behind a brace or a bar. -/
theorem Agrees.fresh_iff (h : p.Agrees s w) (ho : w.opens ≠ []) :
    s.parts = [] ↔ w.fresh.isSome := by
  rw [h.parts]
  constructor
  · rintro (h0 | hf)
    · exact absurd (h.outside h0) ho
    · exact hf
  · exact .inr

/-- Where no option can end, the parser and the sweep give the same reason. -/
theorem Agrees.refuse (h : p.Agrees s w) (value : String) (hs : p.Shows s.position w.mark) :
    p.diagnostic (s.refuse value).fault =
      (⟨if w.opens = [] then (Cause.stray value).message else (Cause.emptyOption value).message,
        w.mark⟩ : Objection).diagnostic p.file := by
  rw [State.refuse, hs.diagnostic, h.depth]
  by_cases ho : w.opens = []
  · rw [if_pos ho, if_pos (List.length_eq_zero_iff.2 ho)]
  · rw [if_neg ho, if_neg (fun hn => ho (List.length_eq_zero_iff.1 hn))]

theorem Agrees.text (h : p.Agrees s w) {x : Lexeme} (hk : x.kind = .text)
    (hx : w.steps limit x.items = .ok ⟨w.mark.past x.chars, w.opens, none⟩) :
    p.Lockstep (w.mark.past x.chars) (x.depth w.opens.length) (s.position + 1)
      (s.step limit (x.token p.file w.mark)) (w.steps limit x.items) := by
  have hstep : s.step limit (x.token p.file w.mark) =
      .ok (s.addText (x.token p.file w.mark)) := by
    simp only [State.step, Lexeme.token, hk]
  have hd : x.depth w.opens.length = w.opens.length := by
    cases x with
    | escape => rfl
    | run => rfl
    | _ => cases hk
  have hpast : (w.mark.past x.chars).offset ≠ 0 := by
    cases hc : x.chars with
    | nil => exact absurd hc x.chars_ne_nil
    | cons c cs => exact past_offset_ne_zero w.mark c cs
  rw [hstep, hx, hd]
  refine ⟨agrees_behind (Nat.succ_pos _) hpast h.depth h.frames ?_ ?_, rfl, rfl, rfl⟩
  · simp [State.addText]
  · intro m hm
    cases hm

theorem Agrees.opening (h : p.Agrees s w) (hs : p.Shows s.position w.mark) {t : Token}
    (hk : t.kind = .opening) :
    p.Lockstep (w.mark.past ['{']) (w.opens.length + 1) (s.position + 1)
      (s.step limit t) (w.step limit (.single '{')) := by
  simp only [State.step, hk, State.openBlock, Sweep.step, if_true, h.depth]
  by_cases hl : limit < w.opens.length + 1
  · rw [if_pos hl, if_pos hl]
    exact hs.diagnostic (.tooDeep limit)
  · rw [if_neg hl, if_neg hl]
    refine ⟨agrees_behind (Nat.succ_pos _) (past_offset_ne_zero _ _ _) rfl ?_ ?_ ?_,
      rfl, rfl, rfl⟩
    · exact .cons hs h.frames
    · simp
    · intro m hm
      cases hm
      exact hs

theorem Agrees.frame (h : p.Agrees s w) {m : Mark} {ms : List Mark} (ho : w.opens = m :: ms) :
    ∃ f frames, s.frames = f :: frames ∧ p.Shows f.index m ∧
      List.Forall₂ (fun f m => p.Shows f.index m) frames ms := by
  have hf := h.frames
  rw [ho, List.forall₂_cons_right_iff] at hf
  obtain ⟨f, frames, hm, hms, hframes⟩ := hf
  exact ⟨f, frames, hframes, hm, hms⟩

theorem Agrees.bar (h : p.Agrees s w) (hs : p.Shows s.position w.mark) {t : Token}
    (hk : t.kind = .bar) (hv : t.value = "|") (ho : w.opens ≠ []) :
    p.Lockstep (w.mark.past ['|']) w.opens.length (s.position + 1)
      (s.step limit t) (w.step limit (.single '|')) := by
  have hw : w.step limit (.single '|') =
      if w.fresh.isSome then .error ⟨"empty option before '|'", w.mark⟩
      else .ok ⟨w.mark.past ['|'], w.opens, w.mark⟩ := by
    rw [Sweep.step, if_neg (by decide), if_neg (by decide), if_pos ⟨rfl, ho⟩]
    rfl
  have hstep : s.step limit t = s.nextOption t := by rw [State.step, hk]
  have hfresh := h.fresh_iff ho
  rw [hw, hstep, State.nextOption]
  cases hp : s.parts with
  | nil =>
    have hr := h.refuse "|" hs
    rw [if_neg ho] at hr
    rw [if_pos (hfresh.1 hp), hv]
    exact hr
  | cons part parts =>
    have hn : ¬ w.fresh.isSome := fun hn => by simp [hfresh.2 hn] at hp
    obtain ⟨m, ms, hms⟩ := List.exists_cons_of_ne_nil ho
    obtain ⟨f, frames, hf, hm, hrest⟩ := h.frame hms
    rw [if_neg hn, hf]
    refine ⟨agrees_behind (Nat.succ_pos _) (past_offset_ne_zero _ _ _) h.depth ?_ ?_ ?_,
      rfl, rfl, rfl⟩
    · rw [hms]
      exact .cons hm hrest
    · simp
    · intro m hm
      cases hm
      exact hs

theorem Agrees.closing (h : p.Agrees s w) (hs : p.Shows s.position w.mark) {t : Token}
    (hk : t.kind = .closing) (hv : t.value = "\x7d") :
    p.Lockstep (w.mark.past ['}']) (w.opens.length - 1) (s.position + 1)
      (s.step limit t) (w.step limit (.single '}')) := by
  have hw : w.step limit (.single '}') =
      if w.opens = [] then .error ⟨"unexpected '\x7d' outside of a block", w.mark⟩
      else if w.fresh.isSome then .error ⟨"empty option before '\x7d'", w.mark⟩
      else .ok ⟨w.mark.past ['}'], w.opens.tail, none⟩ := by
    rw [Sweep.step, if_neg (by decide), if_pos rfl]
    rfl
  have hstep : s.step limit t = s.closeBlock t := by rw [State.step, hk]
  have hr := h.refuse "\x7d" hs
  rw [hw, hstep, State.closeBlock]
  by_cases ho : w.opens = []
  · have hframes : s.frames = [] := by
      have := h.frames
      rw [ho] at this
      exact List.forall₂_nil_right_iff.1 this
    rw [if_pos ho] at hr ⊢
    rw [hframes, hv]
    cases s.parts <;> exact hr
  · rw [if_neg ho] at hr ⊢
    have hfresh := h.fresh_iff ho
    cases hp : s.parts with
    | nil =>
      rw [if_pos (hfresh.1 hp), hv]
      exact hr
    | cons part parts =>
      have hn : ¬ w.fresh.isSome := fun hn => by simp [hfresh.2 hn] at hp
      obtain ⟨m, ms, hms⟩ := List.exists_cons_of_ne_nil ho
      obtain ⟨f, frames, hf, -, hrest⟩ := h.frame hms
      have hd := h.depth
      rw [if_neg hn, hf]
      rw [hms] at hd ⊢
      refine ⟨agrees_behind (Nat.succ_pos _) (past_offset_ne_zero _ _ _) ?_ hrest ?_ ?_,
        rfl, rfl, rfl⟩
      · simp only [hd, List.length_cons, List.tail_cons, Nat.add_sub_cancel]
      · simp
      · intro m hm
        cases hm

/-- The parser and the sweep keep step over a lexeme. -/
theorem Agrees.lexeme (h : p.Agrees s w) {x : Lexeme} {cs rest : List Char}
    (hx : Reads w.opens.length cs x rest)
    (ht : p.tokens[s.position]? = some (x.token p.file w.mark)) :
    p.Lockstep (w.mark.past x.chars) (x.depth w.opens.length) (s.position + 1)
      (s.step limit (x.token p.file w.mark)) (w.steps limit x.items) := by
  have hs := shows_token ht
  cases hx with
  | opening =>
    rw [Lexeme.items, Sweep.steps_singleton]
    exact h.opening hs rfl
  | closing =>
    rw [Lexeme.items, Sweep.steps_singleton]
    exact h.closing hs rfl rfl
  | bar hd =>
    rw [Lexeme.items, Sweep.steps_singleton]
    exact h.bar hs rfl rfl (List.length_pos_iff.1 hd)
  | escape =>
    refine h.text rfl ?_
    rw [Lexeme.items, Sweep.steps_singleton, Sweep.step, if_neg (by simp), if_neg (by simp),
      if_neg (by simp)]
    rfl
  | run hrun _ _ => exact h.text rfl (Sweep.steps_plain hrun)

/-! ## Whole texts -/

theorem Agrees.lexed {d : Nat} {cs tail : List Char} {xs : List Lexeme} (hxs : Lexed d cs xs tail)
    (htail : tail = []) : ∀ {s : State} {w : Sweep}, p.Agrees s w → w.opens.length = d →
      p.tokens.drop s.position = place p.file w.mark xs →
      p.Lockstep (w.mark.past cs) (depthAfter d xs) (s.position + xs.length)
        (s.run limit (place p.file w.mark xs)) (w.steps limit (Sweep.items cs)) := by
  induction hxs with
  | nil =>
    intro s w h hd _
    exact ⟨h, rfl, hd, rfl⟩
  | lone => cases htail
  | @cons d cs rest tail x xs hx _ ih =>
    intro s w h hd htokens
    subst hd
    have ht : p.tokens[s.position]? = some (x.token p.file w.mark) := by
      rw [← List.head?_drop, htokens]
      rfl
    have hlock : p.Lockstep (w.mark.past x.chars) (x.depth w.opens.length) (s.position + 1)
        (s.step limit (x.token p.file w.mark)) (w.steps limit x.items) := h.lexeme hx ht
    rw [place, State.run_cons, Sweep.items_of_reads hx, Sweep.steps_append, depthAfter_cons,
      hx.chars_append, Mark.past_append, List.length_cons]
    cases hs : s.step limit (x.token p.file w.mark) with
    | error e =>
      cases hw : w.steps limit x.items with
      | error o =>
        rw [hs, hw] at hlock
        exact hlock
      | ok w' =>
        rw [hs, hw] at hlock
        exact hlock.elim
    | ok s' =>
      cases hw : w.steps limit x.items with
      | error o =>
        rw [hs, hw] at hlock
        exact hlock.elim
      | ok w' =>
        rw [hs, hw] at hlock
        obtain ⟨h', hmark, hopens, hposition⟩ := hlock
        have hrest : p.tokens.drop s'.position = place p.file w'.mark xs := by
          rw [hposition, ← List.drop_drop, htokens, hmark]
          rfl
        have := ih htail h' hopens hrest
        rw [hmark, hposition] at this
        rw [Nat.add_comm xs.length, ← Nat.add_assoc]
        exact this

/-- What is missing at the end is told alike. -/
theorem Agrees.finish (h : p.Agrees s w) : p.Told s.finish w.finish := by
  rw [State.finish, Sweep.finish]
  by_cases h0 : s.position = 0
  · rw [h.parts.2 (.inl h0), if_pos (h.start.2 h0), if_pos h0]
    rfl
  · rw [if_neg (fun hw => h0 (h.start.1 hw)), if_neg h0]
    cases hfresh : w.fresh with
    | some m =>
      obtain ⟨-, hs⟩ := h.fresh m hfresh
      rw [h.parts.2 (.inr (by rw [hfresh]; rfl))]
      exact hs.diagnostic .endOfInput
    | none =>
      cases hp : s.parts with
      | nil =>
        rcases h.parts.1 hp with hs | hs
        · exact absurd hs h0
        · rw [hfresh] at hs
          cases hs
      | cons part parts =>
        cases ho : w.opens with
        | nil =>
          have hf := h.frames
          rw [ho, List.forall₂_nil_right_iff] at hf
          rw [hf]
          trivial
        | cons m ms =>
          obtain ⟨f, frames, hf, hs, -⟩ := h.frame ho
          rw [hf]
          exact hs.diagnostic .unterminated

theorem agrees_start (p : Parser) : p.Agrees (State.start 0 0) {} :=
  ⟨rfl, by simp [State.start], fun _ => rfl, .nil, by simp [State.start], by simp⟩

end Step

/-- The tokens of a text are parsed as the sweep over the text says. -/
theorem parse_told {cs : List Char} {xs : List Lexeme} (h : Lexed 0 cs xs []) (limit : Nat)
    (file : Option String) :
    (fresh limit file (place file {} xs)).Told (fresh limit file (place file {} xs)).parse.1
      (Sweep.verdict limit cs) := by
  have hlock : (fresh limit file (place file {} xs)).Lockstep (({} : Mark).past cs)
      (depthAfter 0 xs) (0 + xs.length) ((State.start 0 0).run limit (place file {} xs))
      (Sweep.steps limit {} (Sweep.items cs)) :=
    (agrees_start _).lexed h rfl rfl rfl
  rw [parse_fresh, Sweep.verdict]
  cases hs : (State.start 0 0).run limit (place file {} xs) with
  | error e =>
    rw [hs] at hlock
    cases hw : Sweep.steps limit {} (Sweep.items cs) with
    | ok w =>
      rw [hw] at hlock
      exact hlock.elim
    | error o =>
      rw [hw] at hlock
      exact hlock
  | ok s =>
    rw [hs] at hlock
    cases hw : Sweep.steps limit {} (Sweep.items cs) with
    | ok w =>
      rw [hw] at hlock
      exact hlock.1.finish
    | error o =>
      rw [hw] at hlock
      exact hlock.elim

theorem Told.report {p : Parser} {o? : Option Objection} :
    p.Told p.parse.1 o? →
      match o? with
      | some o => p.report.1.value = .error (o.diagnostic p.file)
      | none => ∃ t, p.report.1.value = .ok t := by
  intro h
  cases hp : p.parse.1 with
  | ok t =>
    rw [hp] at h
    cases o? with
    | none => exact ⟨t, report_of_ok hp⟩
    | some o => exact h.elim
  | error f =>
    rw [hp] at h
    cases o? with
    | none => exact h.elim
    | some o =>
      rw [report_of_error hp]
      exact congrArg Except.error h

end Parser

namespace Template

/-- What becomes of a text. A lone backslash at its end comes before all else, and then the first
objection of the sweep. Where there is none, the text has a tree. -/
theorem compile_eq_verdict (limit : Nat) (file : Option String) (source : String) :
    if endsLone source.toList then
      let m := ({} : Mark).past source.toList.dropLast
      (compile limit file source).value =
        .error ⟨.lexical, "dangling escape", some m.line, some m.column, file⟩
    else
      match Sweep.verdict limit source.toList with
      | some o => (compile limit file source).value = .error (o.diagnostic file)
      | none => ∃ t, (compile limit file source).value = .ok t := by
  obtain ⟨xs, tail, hxs⟩ := exists_lexed 0 source.toList
  have htokens := tokens_of_lexed hxs file
  have htail := hxs.tail_eq
  by_cases hlone : endsLone source.toList
  · rw [if_pos hlone] at htail ⊢
    subst htail
    have hcs : source.toList.dropLast = xs.flatMap Lexeme.chars := by
      rw [hxs.chars_append, List.dropLast_concat]
    rw [if_neg (by simp)] at htokens
    rw [hcs]
    simp only [compile, htokens]
  · rw [if_neg hlone] at htail ⊢
    subst htail
    rw [if_pos rfl] at htokens
    have hvalue : (compile limit file source).value =
        (Parser.fresh limit file (place file {} xs)).report.1.value := by
      simp only [compile, htokens, Parser.fresh]
    rw [hvalue]
    exact (Parser.parse_told hxs limit file).report

end Template
end Spintax
