import Spintax.Proofs.OpenBraces
import Spintax.Proofs.ParserCorrect

/-!
# Spintax.Proofs.Blame

What a parser says of tokens that it does not accept. It reads as far as there is a way to go on,
so that what it has read can be completed, and blames the first token with which it cannot. Where
there is none, it blames what is missing at the end.

* `Accepts`, `Extendable`: lists of tokens with a tree, and the beginnings of such lists.
* `State.HasRead ts s`: what is known of a parser that has read `ts` and nothing else.
* `extendable_iff_run`: the beginnings are what can be read. Every open block can be closed.
* `Misplaced`, `TooDeep`, `Unfinished`: the three ways not to be accepted.
* `parse_blames`: every fault is exactly one of them.
-/

namespace Spintax
namespace Parser

variable {limit : Nat} {file : Option String} {tokens ts : List Token} {t : Token}

/-- A new parser has a tree for the tokens. -/
def Accepts (limit : Nat) (tokens : List Token) : Prop :=
  ∃ t, (fresh limit none tokens).parse.1 = .ok t

/-- The tokens are the beginning of a list that is accepted. -/
def Extendable (limit : Nat) (tokens : List Token) : Prop :=
  ∃ more, Accepts limit (tokens ++ more)

theorem accepts_iff_run :
    Accepts limit tokens ↔
      ∃ s tree, (State.start 0 0).run limit tokens = .ok s ∧ s.finish = .ok tree := by
  simp only [Accepts, parse_fresh]
  cases (State.start 0 0).run limit tokens with
  | ok s => simp
  | error e => simp

theorem Extendable.of_append (h : Extendable limit (ts ++ tokens)) : Extendable limit ts := by
  obtain ⟨more, h⟩ := h
  exact ⟨tokens ++ more, by rwa [← List.append_assoc]⟩

theorem Extendable.take (h : Extendable limit tokens) (n : Nat) :
    Extendable limit (tokens.take n) := by
  rw [← List.take_append_drop n tokens] at h
  exact h.of_append

/-! ## What was read -/

/-- What is known of a parser that has read these tokens, and nothing else. -/
structure State.HasRead (ts : List Token) (s : State) : Prop where
  position_eq : s.position = ts.length
  depth_eq : s.depth = s.frames.length
  nest : Nest ts (s.frames.map Frame.index)
  /-- an option has not begun right behind an opening brace or a bar, and at the start -/
  parts_iff : s.parts = [] ↔ ∀ t, ts.getLast? = some t → t.kind = .opening ∨ t.kind = .bar

namespace State

variable {s s' : State}

theorem start_hasRead : (start 0 0).HasRead [] :=
  ⟨rfl, rfl, .flat .nil, by simp [start]⟩

theorem parts_iff_concat {parts : List Tree}
    (h : parts = [] ↔ t.kind = .opening ∨ t.kind = .bar) :
    parts = [] ↔ ∀ u, (ts ++ [t]).getLast? = some u → u.kind = .opening ∨ u.kind = .bar := by
  simp [h]

theorem Reads.hasRead (h : Reads limit s t s') (hs : s.HasRead ts) : s'.HasRead (ts ++ [t]) := by
  obtain ⟨hposition, hdepth, hnest, -⟩ := hs
  have hlen : s.position + 1 = (ts ++ [t]).length := by rw [hposition]; simp
  cases h with
  | text hk =>
    have hflat : Flat [t] := .singleton (by simp [hk]) (by simp [hk])
    exact ⟨hlen, hdepth, hnest.append hflat, parts_iff_concat (by simp [addText, hk])⟩
  | opening hk hd =>
    refine ⟨hlen, ?_, ?_, parts_iff_concat (by simp [hk])⟩
    · simp only at hdepth
      simp [hdepth]
    · simp only at hposition
      simp only [List.map_cons, hposition]
      exact hnest.concat_opening hk
  | bar hk =>
    have hflat : Flat [t] := .singleton (by simp [hk]) (by simp [hk])
    exact ⟨hlen, hdepth, hnest.append hflat, parts_iff_concat (by simp [hk])⟩
  | closing hk =>
    refine ⟨hlen, ?_, hnest.concat_closing hk, parts_iff_concat (by simp [hk])⟩
    simp only [List.length_cons] at hdepth
    simp [hdepth]

theorem run_hasRead {us : List Token} (h : s.run limit us = .ok s') (hs : s.HasRead ts) :
    s'.HasRead (ts ++ us) := by
  induction us generalizing s ts with
  | nil =>
    cases h
    rwa [List.append_nil]
  | cons t us ih =>
    obtain ⟨s₁, h₁, h⟩ := run_cons_ok_iff.1 h
    have := ih h (h₁.hasRead hs)
    rwa [List.append_assoc] at this

theorem HasRead.depth_eq_zero_iff (h : s.HasRead ts) : s.depth = 0 ↔ ∀ i, ¬ Unclosed ts i := by
  have hnest := h.nest
  rw [h.depth_eq, List.length_eq_zero_iff]
  cases hf : s.frames with
  | nil =>
    rw [hf] at hnest
    exact ⟨fun _ => hnest.not_unclosed, fun _ => rfl⟩
  | cons f frames =>
    rw [hf] at hnest
    exact ⟨fun hn => absurd hn (List.cons_ne_nil _ _),
      fun hn => absurd hnest.innermost.unclosed (hn f.index)⟩

/-! ## Going on from what was read -/

/-- Each open block takes one more brace. -/
theorem exists_finished_of_parts {frames : List Frame} :
    ∀ s : State, s.frames = frames → s.parts ≠ [] →
      ∃ more s' tree, s.run limit more = .ok s' ∧ s'.finish = .ok tree := by
  induction frames with
  | nil =>
    rintro ⟨position, depth, _, parts⟩ rfl hp
    obtain ⟨part, parts, rfl⟩ := List.exists_cons_of_ne_nil hp
    exact ⟨[], _, _, rfl, rfl⟩
  | cons f frames ih =>
    rintro ⟨position, depth, _, parts⟩ rfl hp
    obtain ⟨part, parts, rfl⟩ := List.exists_cons_of_ne_nil hp
    let brace : Token := ⟨.closing, "\x7d", .unknown⟩
    obtain ⟨more, s', tree, hrun, hfinish⟩ := ih
      ⟨position + 1, depth - 1, frames,
        .blockOf (.patternOf part parts) f.options (f.opening.location.spanTo .unknown)
          :: f.before⟩ rfl (List.cons_ne_nil _ _)
    exact ⟨brace :: more, s', tree, run_cons_ok_iff.2 ⟨_, .closing rfl, hrun⟩, hfinish⟩

theorem exists_finished (s : State) :
    ∃ more s' tree, s.run limit more = .ok s' ∧ s'.finish = .ok tree := by
  let text : Token := ⟨.text, "", .unknown⟩
  obtain ⟨more, s', tree, hrun, hfinish⟩ : ∃ more s' tree,
      (s.addText text).run limit more = .ok s' ∧ s'.finish = .ok tree :=
    exists_finished_of_parts (s.addText text) rfl (List.cons_ne_nil _ _)
  exact ⟨text :: more, s', tree, run_cons_ok_iff.2 ⟨_, .text rfl, hrun⟩, hfinish⟩

end State

/-- What can be read can be completed. -/
theorem extendable_iff_run :
    Extendable limit tokens ↔ ∃ s, (State.start 0 0).run limit tokens = .ok s := by
  constructor
  · rintro ⟨more, h⟩
    obtain ⟨s, tree, hrun, -⟩ := accepts_iff_run.1 h
    rw [State.run_append] at hrun
    cases hts : (State.start 0 0).run limit tokens with
    | ok s' => exact ⟨s', rfl⟩
    | error e =>
      rw [hts] at hrun
      cases hrun
  · rintro ⟨s, hs⟩
    obtain ⟨more, s', tree, hrun, hfinish⟩ := @State.exists_finished limit s
    exact ⟨more, accepts_iff_run.2 ⟨s', tree, (State.run_append_of_ok hs).trans hrun, hfinish⟩⟩

/-! ## The token that is blamed -/

namespace State

variable {s : State} {e : Halt}

/-- The token with which it does not go on. -/
theorem run_eq_error (h : s.run limit ts = .error e) :
    ∃ before t after s', ts = before ++ t :: after ∧ s.run limit before = .ok s' ∧
      s'.step limit t = .error e := by
  induction ts generalizing s with
  | nil => cases h
  | cons t ts ih =>
    rw [run_cons] at h
    cases hs : s.step limit t with
    | error e' =>
      rw [hs] at h
      cases h
      exact ⟨[], t, ts, s, rfl, rfl, hs⟩
    | ok s₁ =>
      rw [hs] at h
      obtain ⟨before, u, after, s', rfl, hrun, hstep⟩ := ih h
      exact ⟨t :: before, u, after, s', rfl, run_cons_ok_iff.2 ⟨s₁, step_eq_ok_iff.1 hs, hrun⟩,
        hstep⟩

/-- Everything that one token can be refused for, and what is left behind. -/
theorem step_halt (h : s.step limit t = .error e) :
    (t.kind = .closing ∨ t.kind = .bar) ∧ e = s.refuse t.value ∨
      t.kind = .opening ∧ limit < s.depth + 1 ∧
        e = ⟨⟨.tooDeep limit, some s.position⟩, s.position + 1, s.depth + 1⟩ := by
  obtain ⟨position, depth, frames, parts⟩ := s
  cases hk : t.kind with
  | text =>
    simp only [step, hk] at h
    cases h
  | opening =>
    simp only [step, hk, openBlock] at h
    split at h
    · rename_i hl
      cases h
      exact .inr ⟨rfl, hl, rfl⟩
    · cases h
  | bar =>
    refine .inl ⟨.inr rfl, ?_⟩
    simp only [step, hk, nextOption] at h
    split at h
    · cases h
    · cases h
      rfl
  | closing =>
    refine .inl ⟨.inl rfl, ?_⟩
    simp only [step, hk, closeBlock] at h
    split at h
    · cases h
    · cases h
      rfl

theorem step_eq_error (h : s.step limit t = .error e) :
    (t.kind = .closing ∨ t.kind = .bar) ∧ e.fault = (s.refuse t.value).fault ∨
      t.kind = .opening ∧ e.fault = ⟨.tooDeep limit, some s.position⟩ := by
  obtain ⟨hk, rfl⟩ | ⟨hk, -, rfl⟩ := step_halt h
  · exact .inl ⟨hk, rfl⟩
  · exact .inr ⟨hk, rfl⟩

end State

/-- The tokens before this index can be completed, and with the token there they cannot. -/
def FirstFault (limit : Nat) (tokens : List Token) (p : Nat) : Prop :=
  Extendable limit (tokens.take p) ∧ ¬ Extendable limit (tokens.take (p + 1))

/-- A bar or a closing brace that cannot stand where it is. -/
def Misplaced (limit : Nat) (tokens : List Token) (text : String) (blamed : Option Nat) : Prop :=
  ∃ p t, blamed = some p ∧ tokens[p]? = some t ∧ (t.kind = .closing ∨ t.kind = .bar) ∧
    FirstFault limit tokens p ∧
    ((∀ i, ¬ Unclosed (tokens.take p) i) ∧
        text = "unexpected " ++ Text.quote t.value ++ " outside of a block" ∨
      (∃ i, Unclosed (tokens.take p) i) ∧ text = "empty option before " ++ Text.quote t.value)

/-- A block inside as many others as may be open. -/
def TooDeep (limit : Nat) (tokens : List Token) (text : String) (blamed : Option Nat) : Prop :=
  ∃ p t, blamed = some p ∧ tokens[p]? = some t ∧ t.kind = .opening ∧ FirstFault limit tokens p ∧
    text = "blocks nested deeper than " ++ toString limit ++ " levels"

/-- Tokens behind which something is missing: a pattern, or the end of the innermost block. -/
def Unfinished (limit : Nat) (tokens : List Token) (text : String) (blamed : Option Nat) : Prop :=
  Extendable limit tokens ∧ ¬ Accepts limit tokens ∧
    (tokens = [] ∧ text = "unexpected end of input, expected text or '\x7b'" ∧ blamed = none ∨
      (∃ t, tokens.getLast? = some t ∧ (t.kind = .opening ∨ t.kind = .bar)) ∧
        text = "unexpected end of input, expected text or '\x7b'" ∧
        blamed = some (tokens.length - 1) ∨
      (∃ t, tokens.getLast? = some t ∧ (t.kind = .text ∨ t.kind = .closing)) ∧
        text = "unterminated block, expected '\x7d'" ∧
        ∃ i, blamed = some i ∧ Innermost tokens i)

/-- A report stands where the blamed token stands. It names the file of the parser, if that has a
name, or else the file of the token. -/
def Placed (file : Option String) (tokens : List Token) (d : Diagnostic) : Option Nat → Prop
  | none => d.line = none ∧ d.column = none ∧ d.file = file
  | some i => ∃ t, tokens[i]? = some t ∧ d.line = some t.location.line ∧
      d.column = some t.location.column ∧
      d.file = if (shownFile file).isSome then file else t.location.file

section Faults

variable {before after : List Token} {s : State} {e : Halt}

theorem firstFault_of_step (hrun : (State.start 0 0).run limit before = .ok s)
    (hstep : s.step limit t = .error e) :
    FirstFault limit (before ++ t :: after) before.length := by
  have htake : (before ++ t :: after).take (before.length + 1) = before ++ [t] := by
    have hlen : before.length + 1 = (before ++ [t]).length := by simp
    rw [List.append_cons, hlen, List.take_left]
  refine ⟨?_, ?_⟩
  · rw [List.take_left]
    exact extendable_iff_run.2 ⟨s, hrun⟩
  · rw [htake, extendable_iff_run]
    rintro ⟨s', h⟩
    rw [State.run_append_of_ok hrun, State.run_cons, hstep] at h
    cases h

theorem misplaced_or_tooDeep (hrun : (State.start 0 0).run limit before = .ok s)
    (hstep : s.step limit t = .error e) :
    Misplaced limit (before ++ t :: after) e.fault.cause.message e.fault.blamed ∨
      TooDeep limit (before ++ t :: after) e.fault.cause.message e.fault.blamed := by
  have hfault : FirstFault limit (before ++ t :: after) before.length :=
    firstFault_of_step hrun hstep
  have hread : s.HasRead before := State.run_hasRead hrun State.start_hasRead
  have ht : (before ++ t :: after)[before.length]? = some t := by simp
  have htake : (before ++ t :: after).take before.length = before := List.take_left
  rcases State.step_eq_error hstep with ⟨hk, he⟩ | ⟨hk, he⟩
  · refine .inl ⟨before.length, t, ?_, ht, hk, hfault, ?_⟩
    · rw [he, ← hread.position_eq]
      rfl
    · rw [he, htake, State.refuse]
      by_cases hd : s.depth = 0
      · rw [if_pos hd]
        exact .inl ⟨hread.depth_eq_zero_iff.1 hd, rfl⟩
      · rw [if_neg hd]
        rw [hread.depth_eq_zero_iff, Classical.not_forall_not] at hd
        exact .inr ⟨hd, rfl⟩
  · refine .inr ⟨before.length, t, ?_, ht, hk, hfault, ?_⟩
    · rw [he, ← hread.position_eq]
    · rw [he]
      rfl

theorem unfinished_of_finish {f : Fault} (hrun : (State.start 0 0).run limit tokens = .ok s)
    (hfinish : s.finish = .error f) : Unfinished limit tokens f.cause.message f.blamed := by
  have hread : s.HasRead tokens := State.run_hasRead hrun State.start_hasRead
  refine ⟨extendable_iff_run.2 ⟨s, hrun⟩, ?_, ?_⟩
  · rw [accepts_iff_run]
    rintro ⟨s', tree, h, hok⟩
    rw [hrun] at h
    cases h
    rw [hfinish] at hok
    cases hok
  · have hparts := hread.parts_iff
    have hnest := hread.nest
    have hposition := hread.position_eq
    obtain ⟨position, depth, frames, parts⟩ := s
    cases parts with
    | nil =>
      cases hfinish
      have hlast := hparts.1 rfl
      rcases List.eq_nil_or_concat tokens with rfl | ⟨us, u, rfl⟩
      · exact .inl ⟨rfl, rfl, if_pos hposition⟩
      · have hu := hlast u (by simp)
        refine .inr (.inl ⟨⟨u, by simp, hu⟩, rfl, ?_⟩)
        simp only at hposition
        rw [hposition]
        exact if_neg (by simp)
    | cons part parts =>
      cases frames with
      | nil => cases hfinish
      | cons f frames =>
        cases hfinish
        refine .inr (.inr ⟨?_, rfl, f.index, rfl, hnest.innermost⟩)
        have hlast : ¬ ∀ t, tokens.getLast? = some t → t.kind = .opening ∨ t.kind = .bar :=
          fun h => List.cons_ne_nil _ _ (hparts.2 h)
        obtain ⟨u, hu⟩ := Classical.not_forall.1 hlast
        obtain ⟨hu, hk⟩ := Classical.not_imp.1 hu
        refine ⟨u, hu, ?_⟩
        cases huk : u.kind with
        | text => exact .inl rfl
        | closing => exact .inr rfl
        | opening => exact absurd (.inl huk) hk
        | bar => exact absurd (.inr huk) hk

end Faults

section Exclusion

variable {text : String} {blamed : Option Nat}

theorem FirstFault.not_extendable {p : Nat} (h : FirstFault limit tokens p) :
    ¬ Extendable limit tokens :=
  fun hn => h.2 (hn.take (p + 1))

theorem Misplaced.not_extendable (h : Misplaced limit tokens text blamed) :
    ¬ Extendable limit tokens := by
  obtain ⟨p, t, -, -, -, hfirst, -⟩ := h
  exact hfirst.not_extendable

theorem TooDeep.not_extendable (h : TooDeep limit tokens text blamed) :
    ¬ Extendable limit tokens := by
  obtain ⟨p, t, -, -, -, hfirst, -⟩ := h
  exact hfirst.not_extendable

theorem Misplaced.not_tooDeep (h : Misplaced limit tokens text blamed) :
    ¬ TooDeep limit tokens text blamed := by
  obtain ⟨p, t, rfl, ht, hk, -⟩ := h
  rintro ⟨q, u, hq, hu, hku, -⟩
  cases hq
  rw [ht] at hu
  cases hu
  simp [hku] at hk

end Exclusion

theorem parse_fault_cases {f : Fault} (h : (fresh limit file tokens).parse.1 = .error f) :
    Misplaced limit tokens f.cause.message f.blamed ∨
      TooDeep limit tokens f.cause.message f.blamed ∨
      Unfinished limit tokens f.cause.message f.blamed := by
  rw [parse_fresh] at h
  cases hrun : (State.start 0 0).run limit tokens with
  | ok s =>
    rw [hrun] at h
    exact .inr (.inr (unfinished_of_finish hrun h))
  | error e =>
    rw [hrun] at h
    cases h
    obtain ⟨before, t, after, s, rfl, hbefore, hstep⟩ := State.run_eq_error hrun
    exact (misplaced_or_tooDeep hbefore hstep).imp_right .inl

/-- Only tokens of the list are blamed, and none where there are no tokens. -/
theorem blamed_mem {text : String} {blamed : Option Nat}
    (h : Misplaced limit tokens text blamed ∨ TooDeep limit tokens text blamed ∨
      Unfinished limit tokens text blamed) :
    blamed = none ∨ ∃ i t, blamed = some i ∧ tokens[i]? = some t := by
  obtain ⟨p, t, hp, ht, -⟩ | ⟨p, t, hp, ht, -⟩ | ⟨-, -, hend⟩ := h
  · exact .inr ⟨p, t, hp, ht⟩
  · exact .inr ⟨p, t, hp, ht⟩
  · obtain ⟨-, -, hnone⟩ | ⟨⟨t, ht, -⟩, -, hp⟩ | ⟨-, -, i, hi, hinner⟩ := hend
    · exact .inl hnone
    · exact .inr ⟨_, t, hp, by rwa [← List.getLast?_eq_getElem?]⟩
    · obtain ⟨t, ht, -⟩ := hinner.unclosed.opening
      exact .inr ⟨i, t, hi, ht⟩

theorem diagnostic_text (p : Parser) (f : Fault) : (p.diagnostic f).text = f.cause.message := by
  unfold diagnostic
  split <;> rfl

theorem diagnostic_placed {f : Fault}
    (h : f.blamed = none ∨ ∃ i t, f.blamed = some i ∧ tokens[i]? = some t) :
    Placed file tokens ((fresh limit file tokens).diagnostic f) f.blamed := by
  obtain hnone | ⟨i, t, hi, ht⟩ := h
  · have hblamed : (fresh limit file tokens).blamed f = none := by simp [blamed, hnone]
    rw [hnone, diagnostic, hblamed]
    exact ⟨rfl, rfl, rfl⟩
  · have hblamed : (fresh limit file tokens).blamed f = some t := by
      simp [blamed, hi, fresh, ht]
    rw [hi, diagnostic, hblamed]
    exact ⟨t, ht, rfl, rfl, rfl⟩

/-- What a new parser reports of tokens without a tree: exactly one of three, with its text and
with the place of the token that is blamed. -/
theorem parse_blames {f : Fault} (h : (fresh limit file tokens).parse.1 = .error f) :
    let d := (fresh limit file tokens).diagnostic f
    (fresh limit file tokens).report.1.value = .error d ∧ d.kind = .structural ∧
    Placed file tokens d f.blamed ∧
    (Misplaced limit tokens d.text f.blamed ∧ ¬ TooDeep limit tokens d.text f.blamed ∧
        ¬ Unfinished limit tokens d.text f.blamed ∨
      ¬ Misplaced limit tokens d.text f.blamed ∧ TooDeep limit tokens d.text f.blamed ∧
        ¬ Unfinished limit tokens d.text f.blamed ∨
      ¬ Misplaced limit tokens d.text f.blamed ∧ ¬ TooDeep limit tokens d.text f.blamed ∧
        Unfinished limit tokens d.text f.blamed) := by
  intro d
  have hfaults := parse_fault_cases h
  refine ⟨report_of_error h, diagnostic_kind _ f, diagnostic_placed (blamed_mem hfaults), ?_⟩
  rw [show d.text = f.cause.message from diagnostic_text _ f]
  obtain hm | ht | hu := hfaults
  · exact .inl ⟨hm, hm.not_tooDeep, fun hu => hm.not_extendable hu.1⟩
  · exact .inr (.inl ⟨fun hm => hm.not_tooDeep ht, ht, fun hu => ht.not_extendable hu.1⟩)
  · exact .inr (.inr ⟨fun hm => hm.not_extendable hu.1, fun ht => ht.not_extendable hu.1, hu⟩)

/-- A block whose second option is missing. Its closing brace is blamed, with its place. -/
theorem parse_blames_empty_option :
    let token (kind : Token.Kind) (value : String) (column : Int) : Token :=
      ⟨kind, value, 1, column, 0, 0, some "t"⟩
    let tokens := [token .opening "\x7b" 1, token .text "a" 2, token .bar "|" 3,
      token .closing "\x7d" 4]
    let d : Diagnostic :=
      ⟨.structural, "empty option before '\x7d'", some 1, some 4, some "t"⟩
    (fresh 64 (some "") tokens).report.1.value = .error d ∧ Placed (some "") tokens d (some 3) ∧
      Misplaced 64 tokens d.text (some 3) := by
  intro token tokens d
  obtain ⟨hreport, -, hplaced, hone⟩ :=
    @parse_blames 64 (some "") tokens ⟨.emptyOption "\x7d", some 3⟩ rfl
  refine ⟨hreport, hplaced, ?_⟩
  obtain ⟨hm, -, -⟩ | ⟨-, ht, -⟩ | ⟨-, -, hu⟩ := hone
  · exact hm
  · obtain ⟨p, t, hp, ht, hk, -⟩ := ht
    cases hp
    cases ht
    cases hk
  · obtain ⟨-, -, ⟨hnil, -⟩ | ⟨-, htext, -⟩ | ⟨-, htext, -⟩⟩ := hu
    · exact absurd hnil (List.cons_ne_nil _ _)
    · exact absurd (show d.text = _ from htext) (by decide)
    · exact absurd (show d.text = _ from htext) (by decide)

end Parser
end Spintax
