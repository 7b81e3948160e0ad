import Spintax.Proofs.Lexemes
import Spintax.Template

/-!
# Spintax.Proofs.ScannerLexemes

The scanner, with its stack of modes, finds the lexemes that the number of open blocks fixes.

* `Mode.stack d`: the modes between two tokens, with `d` blocks open.
* `Scanner.next_of_reads`: the next token is the next lexeme, and the stack follows the depth.
* `Scanner.scan_of_lexed`: all tokens, how the text ends, and the modes that are left.
* `Template.tokens_of_lexed`: the tokens of a text.
-/

namespace Spintax

/-- The modes of a scanner between two tokens. -/
def Mode.stack (d : Nat) : List Mode :=
  List.replicate d .block ++ [.normal]

namespace Mode

@[simp] theorem stack_succ (d : Nat) : stack (d + 1) = .block :: stack d := rfl

@[simp] theorem count_stack (d : Nat) : (stack d).count .block = d := by
  simp [stack, List.count_append]

@[simp] theorem length_stack (d : Nat) : (stack d).length = d + 1 := by
  simp [stack]

end Mode

namespace Scanner

variable {s : Scanner} {d : Nat}

theorem mode_of_stack (h : s.modes = Mode.stack d) :
    s.mode = if 0 < d then .block else .normal := by
  cases d with
  | zero => simp [mode, h, Mode.stack]
  | succ d => simp [mode, h]

theorem mode_ne_escape (h : s.modes = Mode.stack d) : s.mode ≠ .escape := by
  rw [mode_of_stack h]
  split <;> simp

theorem mode_eq_block_iff (h : s.modes = Mode.stack d) : s.mode = .block ↔ 0 < d := by
  rw [mode_of_stack h]
  split <;> simp [*]

theorem plain_iff (h : s.modes = Mode.stack d) (c : Char) :
    s.mode.plain c = true ↔ ¬ Stops d c := by
  rw [mode_of_stack h]
  cases d with
  | zero =>
    simp only [Mode.plain, Mode.stops, Stops]
    grind
  | succ d =>
    simp only [Mode.plain, Mode.stops, Stops]
    grind

/-- A closing brace takes the innermost block off the stack, where there is one. -/
theorem modes_after_closing (h : s.modes = Mode.stack d) :
    (if s.mode = .block then s.modes.tail else s.modes) = Mode.stack (d - 1) := by
  rw [mode_of_stack h, h]
  cases d with
  | zero => simp
  | succ d => simp

/-- What the scanner is like behind a lexeme. -/
structure Follows (s s' : Scanner) (d : Nat) (x : Lexeme) (rest : List Char) : Prop where
  rest_eq : s'.rest = rest
  modes_eq : s'.modes = Mode.stack (x.depth d)
  here_eq : s'.here = s.here.past x.chars
  file_eq : s'.file = s.file

section Steps

variable {c : Char} {rest : List Char}

theorem step_opening (hm : s.modes = Mode.stack d) :
    s.step '{' rest = s.punctuation .opening '{' rest (.block :: s.modes) := by
  rw [step, if_neg (mode_ne_escape hm), if_pos rfl]

theorem step_closing (hm : s.modes = Mode.stack d) :
    s.step '}' rest = s.punctuation .closing '}' rest (Mode.stack (d - 1)) := by
  rw [step, if_neg (mode_ne_escape hm), if_neg (by decide), if_pos rfl, modes_after_closing hm]

theorem step_bar (hm : s.modes = Mode.stack d) (hd : 0 < d) :
    s.step '|' rest = s.punctuation .bar '|' rest s.modes := by
  rw [step, if_neg (mode_ne_escape hm), if_neg (by decide), if_neg (by decide),
    if_pos ⟨rfl, (mode_eq_block_iff hm).2 hd⟩]

theorem step_backslash (hm : s.modes = Mode.stack d) :
    s.step '\\' rest = s.backslash '\\' rest := by
  have hbar : ¬ ('\\' = '|' ∧ s.mode = .block) := by simp
  have hsign : '\\' = Escape.sign := rfl
  rw [step, if_neg (mode_ne_escape hm), if_neg (by decide), if_neg (by decide), if_neg hbar,
    if_pos hsign]

theorem step_plain (hm : s.modes = Mode.stack d) (hc : ¬ Stops d c) :
    s.step c rest = s.plainRun c rest := by
  have h₁ : c ≠ '{' := fun h => hc (.inl h)
  have h₂ : c ≠ '}' := fun h => hc (.inr (.inl h))
  have h₃ : c ≠ Escape.sign := fun h => hc (.inr (.inr (.inl h)))
  have h₄ : ¬ (c = '|' ∧ s.mode = .block) := by
    rintro ⟨h, hb⟩
    exact hc (.inr (.inr (.inr ⟨h, (mode_eq_block_iff hm).1 hb⟩)))
  rw [step, if_neg (mode_ne_escape hm), if_neg h₁, if_neg h₂, if_neg h₄, if_neg h₃]

end Steps

theorem next_of_step {s s' : Scanner} {c : Char} {rest : List Char} {t : Token}
    (h : s.rest = c :: rest) (hs : s.step c rest = (some t, s')) : s.next = .token t s' := by
  rw [next_of_cons h, hs]

theorem next_of_reads {x : Lexeme} {rest : List Char} (hm : s.modes = Mode.stack d)
    (h : Reads d s.rest x rest) :
    ∃ s', s.next = .token (x.token s.file s.here) s' ∧ Follows s s' d x rest := by
  generalize hr : s.rest = cs at h
  cases h with
  | opening =>
    have hmodes : .block :: s.modes = Mode.stack (d + 1) := by rw [hm, Mode.stack_succ]
    exact ⟨(s.punctuation .opening '{' rest (.block :: s.modes)).2,
      next_of_step hr (step_opening hm), rfl, hmodes, rfl, rfl⟩
  | closing =>
    exact ⟨(s.punctuation .closing '}' rest (Mode.stack (d - 1))).2,
      next_of_step hr (step_closing hm), rfl, rfl, rfl, rfl⟩
  | bar hd =>
    exact ⟨(s.punctuation .bar '|' rest s.modes).2,
      next_of_step hr (step_bar hm hd), rfl, hm, rfl, rfl⟩
  | @escape c =>
    -- two steps: the backslash pushes a mode, and the next character takes it off again
    have hnext : s.next = (s.backslash '\\' (c :: rest)).2.next := by
      rw [next_of_cons hr, step_backslash hm]
      rfl
    rw [hnext]
    exact ⟨((s.backslash '\\' (c :: rest)).2.escaped c rest).2,
      next_of_step rfl (if_pos rfl), rfl, hm, rfl, rfl⟩
  | @run c cs text rest h hmax htext =>
    have hp : text.takeWhile s.mode.plain = cs ∧ text.dropWhile s.mode.plain = rest := by
      rw [htext]
      refine takeWhile_append_of_stop
        (fun e he => (plain_iff hm e).2 (h e (List.mem_cons_of_mem _ he))) ?_
      intro e he
      rw [← Bool.not_eq_true, plain_iff hm]
      exact not_not_intro (hmax e he)
    have hrun : s.plainRun c text =
        (some ((Lexeme.run c cs).token s.file s.here), (s.plainRun c text).2) := by
      simp only [plainRun, hp.1]
      rfl
    refine ⟨(s.plainRun c text).2,
      next_of_step hr ((step_plain hm (h c (by simp))).trans hrun), hp.2, hm, ?_, rfl⟩
    simp only [plainRun, hp.1]
    rfl

/-! ## Whole texts -/

theorem scan_of_token {s s' : Scanner} {t : Token} (h : s.next = .token t s') :
    s.scan.tokens = t :: s'.scan.tokens ∧ s.scan.ending = s'.scan.ending ∧
      s.scan.last = s'.scan.last := by
  rw [scan_eq s, h]
  exact ⟨rfl, rfl, rfl⟩

/-- How a text ends, with so many blocks open. -/
def endingAt (d : Nat) (m : Mark) : Ending :=
  if d = 0 then .clean else .leftOpen d m

@[simp] theorem diagnostic?_endingAt (d : Nat) (m : Mark) (file : Option String) :
    (endingAt d m).diagnostic? file = none := by
  unfold endingAt
  split <;> rfl

theorem mem_events_endingAt {m : Mark} {e : Event} (h : e ∈ (endingAt d m).events) :
    e = .leftOpen d m := by
  unfold endingAt at h
  split at h
  · cases h
  · exact List.mem_singleton.1 h

theorem scan_of_lexed {xs : List Lexeme} {cs tail : List Char} (h : Lexed d cs xs tail) :
    ∀ s : Scanner, s.modes = Mode.stack d → s.rest = cs →
      s.scan.tokens = place s.file s.here xs ∧
      s.scan.ending =
        (if tail = [] then endingAt (depthAfter d xs) (s.here.past cs)
        else .dangling (s.here.past (xs.flatMap Lexeme.chars))) ∧
      s.scan.last.modes =
        if tail = [] then Mode.stack (depthAfter d xs)
        else .escape :: Mode.stack (depthAfter d xs) := by
  induction h with
  | @nil d =>
    intro s hm hr
    have hnext : s.next = .ended s.ending s := next_of_nil hr
    rw [scan_eq, hnext]
    refine ⟨rfl, ?_, hm⟩
    simp only [ending, if_neg (mode_ne_escape hm), hm, Mode.length_stack, depth,
      Mode.count_stack, endingAt]
    cases d <;> simp
  | @lone d =>
    intro s hm hr
    have hmodes : (s.backslash '\\' []).2.modes = .escape :: Mode.stack d :=
      congrArg (Mode.escape :: ·) hm
    have hnext : s.next = .ended (.dangling s.here) (s.backslash '\\' []).2 := by
      rw [next_of_cons hr, step_backslash hm]
      exact next_of_nil rfl
    rw [scan_eq, hnext]
    exact ⟨rfl, rfl, hmodes⟩
  | @cons d cs rest tail x xs hx _ ih =>
    intro s hm hr
    obtain ⟨s', hnext, hrest, hmodes, hhere, hfile⟩ := next_of_reads hm (hr ▸ hx)
    obtain ⟨htokens, hending, hlast⟩ := scan_of_token hnext
    obtain ⟨ht, he, hl⟩ := ih s' hmodes hrest
    rw [htokens, hending, hlast, ht, he, hl, hhere, hfile]
    refine ⟨rfl, ?_, rfl⟩
    simp only [depthAfter_cons, List.flatMap_cons, Mark.past_append, hx.chars_append]

end Scanner

namespace Template

/-- The tokens of a text are its lexemes, each at its place, unless the text ends in a lone
backslash. -/
theorem tokens_of_lexed {text : String} {xs : List Lexeme} {tail : List Char}
    (h : Lexed 0 text.toList xs tail) (file : Option String) :
    (tokens file text).value =
      if tail = [] then .ok (place file {} xs)
      else
        let m := ({} : Mark).past (xs.flatMap Lexeme.chars)
        .error ⟨.lexical, "dangling escape", some m.line, some m.column, file⟩ := by
  obtain ⟨ht, he, -⟩ := Scanner.scan_of_lexed h (Scanner.ofText text file) rfl rfl
  by_cases htail : tail = []
  · rw [if_pos htail] at he ⊢
    simp only [tokens, he, Scanner.diagnostic?_endingAt, ht]
    rfl
  · rw [if_neg htail] at he ⊢
    simp only [tokens, he, Ending.diagnostic?]
    rfl

end Template
end Spintax
