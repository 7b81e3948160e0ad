import Spintax.Proofs.Positions
import Spintax.Proofs.Tiling

/-!
# Spintax.Proofs.ModeStack

The stack of modes after each step of a scanner. At its bottom is the normal mode, above that one
block mode for each block that is open, and above these, only between a backslash and the character
behind it, the escape mode.

* `Scanner.Reached`: the scanners that a text is read with, each with the tokens made so far.
* `Scanner.Settled`, `Scanner.Waiting`: the two kinds of them. `Settled.step` and `Waiting.step` say
  what a step makes of each.
* `Scanner.step_modes`: all that a step can do to the stack.
* `TokenStream.Heard`: deliveries with the scanners that they leave, all of them reached.
  `play_heard`: those of any schedule.
* `stack_of_modes`: the stack after every step, and wherever a stream has given a token.
-/

namespace Spintax

@[simp] theorem Mode.getLast?_stack (d : Nat) : (Mode.stack d).getLast? = some .normal :=
  List.getLast?_concat

theorem balance_append (d : Nat) (ts us : List Token) :
    balance d (ts ++ us) = balance (balance d ts) us :=
  List.foldl_append

namespace Scanner

/-- The scanners that a text is read with, one step behind the other, and the tokens that the steps
have made. -/
inductive Reached (text : String) (file : Option String) : List Token → Scanner → Prop where
  | start : Reached text file [] (.ofText text file)
  | step {ts : List Token} {s : Scanner} {c : Char} {rest : List Char}
      (h : Reached text file ts s) (hr : s.rest = c :: rest) :
      Reached text file (ts ++ (s.step c rest).1.toList) (s.step c rest).2

/-- The characters `before` are read, and no escape has begun. One block mode is on the stack for
each block that the tokens leave open. -/
structure Settled (cs before : List Char) (ts : List Token) (s : Scanner) : Prop where
  text_eq : cs = before ++ s.rest
  here_eq : s.here = ({} : Mark).past before
  modes_eq : s.modes = Mode.stack (balance 0 ts)

/-- The backslash behind `before` is read, and the character that it escapes is not. -/
structure Waiting (cs before : List Char) (ts : List Token) (s : Scanner) : Prop where
  text_eq : cs = before ++ '\\' :: s.rest
  saved_eq : s.saved = ({} : Mark).past before
  here_eq : s.here = ({} : Mark).past (before ++ ['\\'])
  modes_eq : s.modes = .escape :: Mode.stack (balance 0 ts)

section Steps

variable {cs before rest : List Char} {ts : List Token} {s : Scanner} {c : Char}

theorem Settled.punctuation (h : Settled cs before ts s) (hr : s.rest = c :: rest)
    {kind : Token.Kind} {modes : List Mode}
    (hm : modes = Mode.stack (balance 0 (ts ++ [s.token kind [c] s.here (s.here.next c)]))) :
    ∃ t s' after, s.punctuation kind c rest modes = (some t, s') ∧
      Settled cs (before ++ after) (ts ++ [t]) s' := by
  refine ⟨_, _, [c], rfl, ?_, ?_, hm⟩
  · rw [h.text_eq, hr, List.append_assoc]
    rfl
  · rw [Mark.past_append, ← h.here_eq]
    rfl

theorem Settled.plainRun (h : Settled cs before ts s) (hr : s.rest = c :: rest) :
    ∃ t s' after, s.plainRun c rest = (some t, s') ∧
      Settled cs (before ++ after) (ts ++ [t]) s' := by
  refine ⟨_, _, c :: rest.takeWhile s.mode.plain, rfl, ?_, ?_, ?_⟩
  · rw [h.text_eq, hr, List.append_assoc, List.cons_append, List.takeWhile_append_dropWhile]
  · rw [Mark.past_append, ← h.here_eq]
  · rw [balance_append]
    exact h.modes_eq

/-- From a settled scanner, a step makes a token, or reads a backslash. -/
theorem Settled.step (h : Settled cs before ts s) (hr : s.rest = c :: rest) :
    (∃ t s' after, s.step c rest = (some t, s') ∧ Settled cs (before ++ after) (ts ++ [t]) s') ∨
      ∃ s', s.step c rest = (none, s') ∧ Waiting cs before ts s' := by
  have hm := h.modes_eq
  by_cases hc : Stops (balance 0 ts) c
  · rcases hc with rfl | rfl | rfl | ⟨rfl, hd⟩
    · rw [step_opening hm]
      refine .inl (h.punctuation hr ?_)
      rw [balance_append, hm, ← Mode.stack_succ]
      rfl
    · rw [step_closing hm]
      refine .inl (h.punctuation hr ?_)
      rw [balance_append]
      rfl
    · rw [step_backslash hm]
      refine .inr ⟨_, rfl, ?_, h.here_eq, ?_, congrArg (Mode.escape :: ·) hm⟩
      · rw [h.text_eq, hr]
      · rw [Mark.past_append, ← h.here_eq]
        rfl
    · rw [step_bar hm hd]
      refine .inl (h.punctuation hr ?_)
      rw [balance_append]
      exact hm
  · rw [step_plain hm hc]
    exact .inl (h.plainRun hr)

/-- A scanner that waits takes the next character, whatever it is, and is settled again. -/
theorem Waiting.step (h : Waiting cs before ts s) (hr : s.rest = c :: rest) :
    ∃ t s', s.step c rest = (some t, s') ∧ Settled cs (before ++ ['\\', c]) (ts ++ [t]) s' := by
  have hmode : s.mode = .escape := by
    rw [mode, h.modes_eq]
    rfl
  rw [Scanner.step, if_pos hmode]
  refine ⟨_, _, rfl, ?_, ?_, ?_⟩
  · rw [h.text_eq, hr, List.append_assoc]
    rfl
  · show s.here.next c = _
    rw [h.here_eq, Mark.past_append, Mark.past_append]
    rfl
  · show s.modes.tail = _
    rw [balance_append, h.modes_eq]
    rfl

/-- A step leaves the stack alone, puts one mode on it, or takes one off. That mode is never the
normal one. -/
theorem step_modes (s : Scanner) (c : Char) (rest : List Char) :
    (s.step c rest).2.modes = s.modes ∨
      ∃ m, m ≠ .normal ∧
        ((s.step c rest).2.modes = m :: s.modes ∨ s.modes = m :: (s.step c rest).2.modes) := by
  -- the mode that is asked for is on top of the stack, unless it is the normal one
  have hpop : ∀ m, s.mode = m → m ≠ .normal → s.modes = m :: s.modes.tail := by
    rintro m rfl hne
    unfold mode at hne ⊢
    cases hs : s.modes with
    | nil =>
      rw [hs] at hne
      exact absurd rfl hne
    | cons m ms => rfl
  unfold step
  by_cases hescape : s.mode = .escape
  · rw [if_pos hescape]
    exact .inr ⟨.escape, by simp, .inr (hpop _ hescape (by simp))⟩
  rw [if_neg hescape]
  by_cases hopening : c = '{'
  · rw [if_pos hopening]
    exact .inr ⟨.block, by simp, .inl rfl⟩
  rw [if_neg hopening]
  by_cases hclosing : c = '}'
  · rw [if_pos hclosing]
    by_cases hblock : s.mode = .block
    · rw [if_pos hblock]
      exact .inr ⟨.block, by simp, .inr (hpop _ hblock (by simp))⟩
    · rw [if_neg hblock]
      exact .inl rfl
  rw [if_neg hclosing]
  by_cases hbar : c = '|' ∧ s.mode = .block
  · rw [if_pos hbar]
    exact .inl rfl
  rw [if_neg hbar]
  by_cases hsign : c = Escape.sign
  · rw [if_pos hsign]
    exact .inr ⟨.escape, by simp, .inl rfl⟩
  · rw [if_neg hsign]
    exact .inl rfl

end Steps

/-! ## Whole runs -/

section Runs

variable {text : String} {file : Option String} {cs before : List Char} {ts : List Token}
  {s : Scanner}

theorem Reached.stands (h : Reached text file ts s) :
    ∃ before, Settled text.toList before ts s ∨ Waiting text.toList before ts s := by
  induction h with
  | start => exact ⟨[], .inl ⟨rfl, rfl, rfl⟩⟩
  | step h hr ih =>
    obtain ⟨before, hs | hw⟩ := ih
    · obtain ⟨t, s', after, hstep, hs'⟩ | ⟨s', hstep, hw'⟩ := hs.step hr
      · rw [hstep]
        exact ⟨_, .inl hs'⟩
      · rw [hstep, Option.toList_none, List.append_nil]
        exact ⟨_, .inr hw'⟩
    · obtain ⟨t, s', hstep, hs'⟩ := hw.step hr
      rw [hstep]
      exact ⟨_, .inl hs'⟩

/-- A token is given right behind the step that makes it, so that no escape is in progress. -/
theorem Reached.next (h : Reached text file ts s) :
    match s.next with
    | .token t s' => Reached text file (ts ++ [t]) s' ∧
        ∃ before, Settled text.toList before (ts ++ [t]) s'
    | .ended _ s' => Reached text file ts s' := by
  fun_induction Scanner.next s generalizing ts with
  | case1 s hr => exact h
  | case2 s c rest hr t s' hstep =>
    have hreached := h.step hr
    obtain ⟨before, hs | hw⟩ := h.stands
    · obtain ⟨t₁, s₁, after, hstep₁, hs₁⟩ | ⟨s₁, hstep₁, -⟩ := hs.step hr
      · rw [hstep] at hreached hstep₁
        cases hstep₁
        exact ⟨hreached, _, hs₁⟩
      · rw [hstep] at hstep₁
        cases hstep₁
    · obtain ⟨t₁, s₁, hstep₁, hs₁⟩ := hw.step hr
      rw [hstep] at hreached hstep₁
      cases hstep₁
      exact ⟨hreached, _, hs₁⟩
  | case3 s c rest hr s' hstep ih =>
    have hreached := h.step hr
    rw [hstep, Option.toList_none, List.append_nil] at hreached
    exact ih hreached

theorem Settled.depth_eq (h : Settled cs before ts s) : s.depth = balance 0 ts := by
  rw [depth, h.modes_eq, Mode.count_stack]

theorem Waiting.depth_eq (h : Waiting cs before ts s) : s.depth = balance 0 ts := by
  rw [depth, h.modes_eq, List.count_cons_of_ne (by simp), Mode.count_stack]

/-- What is read is what stands before the point where the scanner is. -/
theorem rest_eq_drop (htext : cs = before ++ s.rest) (hhere : s.here = ({} : Mark).past before) :
    s.rest = cs.drop s.here.offset := by
  rw [htext, hhere, Mark.past_offset, Nat.zero_add, List.drop_left]

theorem Waiting.backslash (h : Waiting cs before ts s) :
    ∃ a, s.here.offset = a + 1 ∧ cs[a]? = some '\\' ∧
      s.saved = ⟨lineAt cs a, columnAt cs a, a⟩ := by
  refine ⟨before.length, ?_, ?_, ?_⟩
  · rw [h.here_eq, Mark.past_offset, Nat.zero_add, List.length_append, List.length_singleton]
  · rw [h.text_eq, List.getElem?_append_right (Nat.le_refl _), Nat.sub_self]
    rfl
  · rw [h.saved_eq, Mark.past_eq h.text_eq]

end Runs
end Scanner

/-! ## What streams give -/

namespace TokenStream

open Scanner

variable {text : String} {file : Option String} {ts : List Token}
  {ds ds' : List (Delivery × TokenStream)}

/-- The tokens among some deliveries. -/
def given (ds : List (Delivery × TokenStream)) : List Token :=
  (readings ds).map (·.1)

theorem given_append (ds ds' : List (Delivery × TokenStream)) :
    given (ds ++ ds') = given ds ++ given ds' := by
  rw [given, readings_append, List.map_append]
  rfl

/-- What is known of a delivery, with the stream behind it, where the tokens given so far are `ts`,
the one that is delivered included. -/
structure Moment (text : String) (file : Option String) (ts : List Token)
    (p : Delivery × TokenStream) : Prop where
  reached : Reached text file ts p.2.scanner
  settled : ∀ t, p.1 = .token t → ∃ before, Settled text.toList before ts p.2.scanner

/-- Deliveries one behind the other, where the tokens given before are `ts`. -/
def Heard (text : String) (file : Option String) :
    List Token → List (Delivery × TokenStream) → Prop
  | _, [] => True
  | ts, p :: ds => Moment text file (ts ++ given [p]) p ∧ Heard text file (ts ++ given [p]) ds

theorem heard_append :
    Heard text file ts (ds ++ ds') ↔
      Heard text file ts ds ∧ Heard text file (ts ++ given ds) ds' := by
  induction ds generalizing ts with
  | nil => simp [Heard, given, readings]
  | cons p ds ih =>
    rw [List.cons_append, Heard, Heard, ih, List.append_assoc, ← given_append, and_assoc]
    rfl

theorem Heard.moment {p : Delivery × TokenStream} (h : Heard text file ts (ds ++ p :: ds')) :
    Moment text file (ts ++ given (ds ++ [p])) p := by
  rw [given_append, ← List.append_assoc]
  exact (heard_append.1 h).2.1

/-- A delivery without a token leaves what was given as it is. -/
theorem heard_tokenless {p : Delivery × TokenStream} (hp : given [p] = [])
    (h : Reached text file ts p.2.scanner) :
    Heard text file ts [p] ∧ Reached text file (ts ++ given [p]) p.2.scanner := by
  have hnone : ts ++ given [p] = ts := by rw [hp, List.append_nil]
  rw [Heard, hnone]
  refine ⟨⟨⟨h, fun t ht => ?_⟩, trivial⟩, h⟩
  obtain ⟨d, s⟩ := p
  cases ht
  cases hp

/-- All that a new stream gives, and the scanner that it leaves at the end. -/
theorem trace_heard {s : Scanner} (h : Reached text file ts s) :
    Heard text file ts (trace { scanner := s }) ∧
      Reached text file (ts ++ given (trace { scanner := s })) s.scan.last := by
  induction hlen : s.rest.length using Nat.strongRecOn generalizing ts s with
  | ind n ih =>
    have hnext := h.next
    have hscan := s.scan_eq
    cases hn : s.next with
    | token t s' =>
      rw [hn] at hnext hscan
      obtain ⟨hreached, hsettled⟩ := hnext
      have hlt := Scanner.next_rest_lt hn
      rw [hlen] at hlt
      obtain ⟨hheard, hlast⟩ := ih _ hlt hreached rfl
      rw [trace_of_token hn, hscan]
      refine ⟨⟨⟨hreached, fun _ _ => hsettled⟩, hheard⟩, ?_⟩
      rw [List.append_assoc] at hlast
      exact hlast
    | ended e s' =>
      rw [hn] at hnext hscan
      rw [trace_of_ended hn, hscan]
      exact heard_tokenless rfl hnext

theorem Move.heard (m : Move) (s : TokenStream) (h : Reached text file ts s.scanner) :
    Heard text file ts (m.deliveries s) ∧
      Reached text file (ts ++ given (m.deliveries s)) (m.after s).scanner := by
  have hnothing : ts ++ given [] = ts := List.append_nil ts
  obtain ⟨scanner, finished⟩ := s
  cases m with
  | restart =>
    simp only [deliveries, hnothing]
    exact ⟨trivial, h⟩
  | drain =>
    cases finished with
    | true =>
      have htrace : trace ⟨scanner, true⟩ = [] := trace_of_finished rfl
      simp only [deliveries, htrace, hnothing]
      exact ⟨trivial, h⟩
    | false => exact trace_heard h
  | advance =>
    cases finished with
    | true => exact heard_tokenless rfl h
    | false =>
      have hnext := h.next
      cases hn : scanner.next with
      | token t s' =>
        rw [hn] at hnext
        simp only [deliveries, after, next_of_token hn]
        exact ⟨⟨⟨hnext.1, fun _ _ => hnext.2⟩, trivial⟩, hnext.1⟩
      | ended e s' =>
        rw [hn] at hnext
        simp only [deliveries, after, next_of_ended hn]
        exact heard_tokenless rfl hnext

theorem play_heard (ms : List Move) (s : TokenStream) (h : Reached text file ts s.scanner) :
    Heard text file ts (play ms s).1 := by
  induction ms generalizing s ts with
  | nil => trivial
  | cons m ms ih =>
    obtain ⟨hheard, hreached⟩ := m.heard s h
    exact heard_append.2 ⟨hheard, ih _ hreached⟩

end TokenStream

/-- The stack after every step, and wherever a stream has given a token, in any schedule of streams
on one scanner. It is the normal mode, a block mode for each block that the tokens so far leave
open, and an escape mode if a backslash was the last character to be read. Nothing but block and
escape modes are ever put on it or taken off, and behind a token it holds no escape mode. -/
theorem stack_of_modes (text : String) (file : Option String) :
    (∀ ts s, Scanner.Reached text file ts s →
      (s.modes = Mode.stack s.depth ∨ s.modes = .escape :: Mode.stack s.depth) ∧
      s.depth = balance 0 ts ∧
      s.modes.getLast? = some .normal ∧
      s.rest = text.toList.drop s.here.offset ∧
      (s.mode = .escape → ∃ a, s.here.offset = a + 1 ∧ text.toList[a]? = some '\\' ∧
        s.saved = ⟨lineAt text.toList a, columnAt text.toList a, a⟩) ∧
      ∀ c rest, s.rest = c :: rest → (s.step c rest).2.modes = s.modes ∨
        ∃ m, m ≠ .normal ∧
          ((s.step c rest).2.modes = m :: s.modes ∨ s.modes = m :: (s.step c rest).2.modes)) ∧
    ∀ ms ds t s ds', (TokenStream.play ms (.ofText text file)).1 = ds ++ (.token t, s) :: ds' →
      let ts := (TokenStream.readings (ds ++ [(.token t, s)])).map (·.1)
      Scanner.Reached text file ts s.scanner ∧
      s.scanner.modes = Mode.stack s.scanner.depth ∧ .escape ∉ s.scanner.modes ∧
      s.scanner.depth = balance 0 ts ∧
      (s.scanner.mode = .block ↔ 0 < s.scanner.depth) := by
  constructor
  · intro ts s h
    have hchanges := s.step_modes
    obtain ⟨before, hs | hw⟩ := h.stands
    · have hmode : s.mode ≠ .escape := Scanner.mode_ne_escape hs.modes_eq
      refine ⟨.inl ?_, hs.depth_eq, ?_, Scanner.rest_eq_drop hs.text_eq hs.here_eq,
        fun hescape => absurd hescape hmode, fun c rest _ => hchanges c rest⟩
      · rw [hs.depth_eq, hs.modes_eq]
      · rw [hs.modes_eq, Mode.getLast?_stack]
    · have htext : text.toList = (before ++ ['\\']) ++ s.rest := by
        rw [hw.text_eq, List.append_assoc, List.singleton_append]
      refine ⟨.inr ?_, hw.depth_eq, ?_, Scanner.rest_eq_drop htext hw.here_eq,
        fun _ => hw.backslash, fun c rest _ => hchanges c rest⟩
      · rw [hw.depth_eq, hw.modes_eq]
      · rw [hw.modes_eq, List.getLast?_cons, Mode.getLast?_stack]
        rfl
  · intro ms ds t s ds' hplay
    have hheard := TokenStream.play_heard ms (.ofText text file) (.start)
    rw [hplay] at hheard
    obtain ⟨hreached, hsettled⟩ := hheard.moment
    obtain ⟨before, hs⟩ := hsettled t rfl
    have hmodes : s.scanner.modes = Mode.stack s.scanner.depth := by
      rw [hs.depth_eq, hs.modes_eq]
    refine ⟨hreached, hmodes, ?_, hs.depth_eq, Scanner.mode_eq_block_iff hmodes⟩
    rw [hmodes]
    simp [Mode.stack]

/-- An opening brace and a backslash are read. The brace behind them is to be escaped. -/
theorem stack_of_modes_in_escape :
    ∃ ts s, Scanner.Reached "\x7b\\\x7d" none ts s ∧ s.modes = [.escape, .block, .normal] ∧
      s.depth = 1 ∧ balance 0 ts = 1 ∧ s.rest = ['}'] ∧ s.saved = ⟨1, 2, 1⟩ := by
  let start := Scanner.ofText "\x7b\\\x7d" none
  have hstart : Scanner.Reached "\x7b\\\x7d" none [] start := .start
  have hopening : start.rest = '{' :: ['\\', '}'] := rfl
  have hbackslash : (start.step '{' ['\\', '}']).2.rest = '\\' :: ['}'] := rfl
  have hsign := (hstart.step hopening).step hbackslash
  obtain ⟨hmodes, hdepth, -, hrest, hsaved, -⟩ := (stack_of_modes _ none).1 _ _ hsign
  obtain ⟨a, ha, -, hmark⟩ := hsaved rfl
  cases ha
  exact ⟨_, _, hsign, hmodes.resolve_left (by decide), rfl, hdepth.symm, hrest, hmark⟩

end Spintax
