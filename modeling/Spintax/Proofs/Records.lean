import Spintax.Proofs.Concatenation
import Spintax.Proofs.Dangling
import Spintax.Proofs.LaterCalls

/-!
# Spintax.Proofs.Records

What is recorded of a compilation, and that the records agree with how it ends. The scanner counts
open blocks over the whole text, the parser over the tokens that it reads. The two counts are the
same for as long as the parser reads, so they are the same at the end of the text if it gets there.

* `State.run_balance`: the two counts in step.
* `State.finish_ok_iff`: at the end, a parser that has read something lacks nothing but the ends of
  open blocks.
* `Cause.eq_unterminated`, `Cause.eq_endOfInput`: the messages that name the end are not those of
  tokens.
* `rejections`: what is recorded of the structure.
* `events_of_lone`, `events_of_lexed`: the records of a compilation.
* `compile_recorded`: all records, what they promise, and what they have promised.
-/

namespace Spintax
namespace Parser

variable {limit : Nat} {file : Option String} {tokens ts : List Token} {t : Token} {f : Fault}

/-! ## The two counts -/

namespace State

variable {s s' : State}

/-- Braces count for the parser as they do for the scanner. -/
theorem Reads.token_depth (h : Reads limit s t s') : t.depth s.depth = s'.depth := by
  cases h with
  | text hk => simp [Token.depth, hk, addText]
  | opening hk hd => simp [Token.depth, hk]
  | bar hk => simp [Token.depth, hk]
  | closing hk => simp [Token.depth, hk]

theorem run_balance (h : s.run limit ts = .ok s') : balance s.depth ts = s'.depth := by
  induction ts generalizing s with
  | nil =>
    cases h
    rfl
  | cons t ts ih =>
    obtain ⟨s₁, h₁, h⟩ := run_cons_ok_iff.1 h
    rw [balance, List.foldl_cons, h₁.token_depth]
    exact ih h

/-- Behind a token, a pattern has begun or a block is open. -/
theorem Reads.begun (h : Reads limit s t s') : s'.parts = [] → s'.frames ≠ [] := by
  cases h <;> simp [addText]

theorem run_begun (hne : ts ≠ []) (h : s.run limit ts = .ok s') :
    s'.parts = [] → s'.frames ≠ [] := by
  induction ts generalizing s with
  | nil => exact absurd rfl hne
  | cons t ts ih =>
    obtain ⟨s₁, h₁, h⟩ := run_cons_ok_iff.1 h
    cases ts with
    | nil =>
      cases h
      exact h₁.begun
    | cons u ts => exact ih (List.cons_ne_nil u ts) h

theorem finish_ok_iff (h : s.parts = [] → s.frames ≠ []) :
    (∃ tree, s.finish = .ok tree) ↔ s.frames = [] := by
  obtain ⟨position, depth, frames, parts⟩ := s
  cases parts with
  | nil => simpa [finish] using h rfl
  | cons part parts => cases frames <;> simp [finish]

theorem step_cause {e : Halt} (h : s.step limit t = .error e) :
    e.fault.cause ≠ .unterminated ∧ e.fault.cause ≠ .endOfInput := by
  obtain ⟨-, rfl⟩ | ⟨-, -, rfl⟩ := step_halt h
  · unfold refuse
    split <;> simp
  · simp

end State

/-- What a parser has read when it comes to the end of its tokens. -/
theorem exists_run_of_cause (h : (fresh limit file tokens).parse.1 = .error f)
    (hf : f.cause = .unterminated ∨ f.cause = .endOfInput) :
    ∃ s, (State.start 0 0).run limit tokens = .ok s ∧ s.finish = .error f := by
  rw [parse_fresh] at h
  cases hrun : (State.start 0 0).run limit tokens with
  | ok s =>
    rw [hrun] at h
    exact ⟨s, rfl, h⟩
  | error e =>
    rw [hrun] at h
    cases h
    obtain ⟨before, t, after, s, -, -, hstep⟩ := State.run_eq_error hrun
    obtain ⟨h₁, h₂⟩ := State.step_cause hstep
    obtain hf | hf := hf
    · exact absurd hf h₁
    · exact absurd hf h₂

/-- A list of tokens that leaves a block open has no tree. -/
theorem not_ok_of_balance (h : 1 ≤ balance 0 tokens) (tree : Tree) :
    (fresh limit file tokens).parse.1 ≠ .ok tree := by
  intro hok
  rw [parse_fresh] at hok
  cases hrun : (State.start 0 0).run limit tokens with
  | error e =>
    rw [hrun] at hok
    cases hok
  | ok s =>
    rw [hrun] at hok
    have hread : s.HasRead tokens := State.run_hasRead hrun State.start_hasRead
    have hne : tokens ≠ [] := by
      rintro rfl
      exact absurd h (by decide)
    have hframes : s.frames = [] :=
      (State.finish_ok_iff (State.run_begun hne hrun)).1 ⟨tree, hok⟩
    have hbalance : balance 0 tokens = s.depth := State.run_balance hrun
    rw [hbalance, hread.depth_eq, hframes] at h
    exact absurd h (by decide)

/-- A parser that is stopped by the end of the tokens has read all of them, and stands as deep as
the scanner behind them. The opening braces without a partner are as many. -/
theorem stopped_by_end (h : (fresh limit file tokens).parse.1 = .error f)
    (hf : f.cause = .unterminated ∨ f.cause = .endOfInput ∧ tokens ≠ []) :
    1 ≤ balance 0 tokens ∧
      (fresh limit file tokens).parse.2.position = tokens.length ∧
      (fresh limit file tokens).parse.2.depth = balance 0 tokens ∧
      ∃ indices : List Nat, indices.length = balance 0 tokens ∧ indices.Nodup ∧
        ∀ i, i ∈ indices ↔ Unclosed tokens i := by
  obtain ⟨s, hrun, hfinish⟩ := exists_run_of_cause h (hf.imp_right And.left)
  have hne : tokens ≠ [] := by
    rintro rfl
    cases h
    simp at hf
  have hread : s.HasRead tokens := State.run_hasRead hrun State.start_hasRead
  have hbalance : balance 0 tokens = s.depth := State.run_balance hrun
  have hframes : s.frames ≠ [] := by
    intro hnil
    obtain ⟨tree, hok⟩ := (State.finish_ok_iff (State.run_begun hne hrun)).2 hnil
    rw [hfinish] at hok
    cases hok
  have hparse : (fresh limit file tokens).parse =
      (s.finish, (fresh limit file tokens).seek s.position s.depth) :=
    parse_of_run_ok hrun
  rw [hparse, hbalance]
  refine ⟨?_, hread.position_eq, rfl, s.frames.map Frame.index, ?_, hread.nest.nodup,
    fun i => hread.nest.mem_iff_unclosed⟩
  · rw [hread.depth_eq]
    exact List.length_pos_iff.2 hframes
  · rw [List.length_map, hread.depth_eq]

/-! ## Messages -/

theorem getElem?_toList_append {a : String} {n : Nat} (h : n < a.toList.length) (b : String) :
    (a ++ b).toList[n]? = a.toList[n]? := by
  rw [String.toList_append, List.getElem?_append_left h]

namespace Cause

/-- The third character of the message. -/
def third : Cause → Char
  | .stray _ | .endOfInput => 'e'
  | .emptyOption _ => 'p'
  | .tooDeep _ => 'o'
  | .unterminated => 't'

theorem message_third (c : Cause) : c.message.toList[2]? = some c.third := by
  cases c with
  | stray value =>
    show ("unexpected " ++ Text.quote value ++ " outside of a block").toList[2]? = _
    rw [String.append_assoc, getElem?_toList_append (by decide)]
    rfl
  | emptyOption value =>
    show ("empty option before " ++ Text.quote value).toList[2]? = _
    rw [getElem?_toList_append (by decide)]
    rfl
  | tooDeep limit =>
    show ("blocks nested deeper than " ++ toString limit ++ " levels").toList[2]? = _
    rw [String.append_assoc, getElem?_toList_append (by decide)]
    rfl
  | endOfInput => rfl
  | unterminated => rfl

theorem third_of_message {c c' : Cause} (h : c.message = c'.message) : c.third = c'.third := by
  have hthird := c.message_third
  rw [h, c'.message_third] at hthird
  exact (Option.some.inj hthird).symm

theorem eq_unterminated {c : Cause} (h : c.message = unterminated.message) : c = .unterminated := by
  have hthird := third_of_message h
  cases c with
  | unterminated => rfl
  | stray value => simp [third] at hthird
  | emptyOption value => simp [third] at hthird
  | tooDeep limit => simp [third] at hthird
  | endOfInput => simp [third] at hthird

/-- A token that is unexpected is quoted, and the end of the input is not. -/
theorem stray_message_ne (value : String) : (stray value).message ≠ endOfInput.message := by
  intro h
  have hquote : (stray value).message.toList[11]? = some (Text.quoteFor value.toList) := by
    show ("unexpected " ++ Text.quote value ++ " outside of a block").toList[11]? = _
    rw [String.append_assoc, String.toList_append, List.getElem?_append_right (by decide),
      String.toList_append, Text.quote, String.toList_ofList]
    rfl
  have hend : endOfInput.message.toList[11]? = some 'e' := rfl
  rw [h, hend, Text.quoteFor] at hquote
  split at hquote <;> exact absurd hquote (by decide)

theorem eq_endOfInput {c : Cause} (h : c.message = endOfInput.message) : c = .endOfInput := by
  have hthird := third_of_message h
  cases c with
  | endOfInput => rfl
  | stray value => exact absurd h (stray_message_ne value)
  | emptyOption value => simp [third] at hthird
  | tooDeep limit => simp [third] at hthird
  | unterminated => simp [third] at hthird

end Cause
end Parser

/-! ## Compiling, with its records -/

namespace Template

variable {text : String} {xs : List Lexeme}

/-- What is recorded of the structure: a fault of structure, with its text, and nothing else. -/
def rejections (blamed : Option Token) : Except Diagnostic Tree → List Event
  | .error d => if d.kind = .structural then [.rejected d.text blamed] else []
  | .ok _ => []

theorem report_rejections (p : Parser) :
    ∃ blamed, p.report.1.events = rejections blamed p.report.1.value := by
  rw [Parser.report_eq_tell]
  cases p.parse.1 with
  | ok tree => exact ⟨none, rfl⟩
  | error f =>
    refine ⟨p.blamed f, ?_⟩
    simp only [Parser.tell, rejections, Parser.diagnostic_kind, if_true, Parser.diagnostic_text,
      Parser.event]

theorem not_mem_rejections {k : Nat} {m : Mark} {blamed : Option Token}
    {r : Except Diagnostic Tree} : .leftOpen k m ∉ rejections blamed r := by
  intro h
  unfold rejections at h
  split at h
  · split at h <;> simp at h
  · simp at h

theorem exists_fault_of_report {p : Parser} {d : Diagnostic} (h : p.report.1.value = .error d) :
    ∃ f, p.parse.1 = .error f ∧ p.diagnostic f = d := by
  rw [Parser.report_eq_tell] at h
  cases hp : p.parse.1 with
  | ok tree =>
    rw [hp] at h
    cases h
  | error f =>
    rw [hp] at h
    exact ⟨f, rfl, Except.error.inj h⟩

/-- What is recorded at the end of a text: how many blocks are open, if any are. -/
theorem events_endingAt (d : Nat) (m : Mark) :
    (Scanner.endingAt d m).events = if 1 ≤ d then [.leftOpen d m] else [] := by
  cases d <;> rfl

theorem events_of_lone (h : endsLone text.toList) (limit : Nat) (file : Option String) :
    (compile limit file text).events = [.compiling text.length] := by
  obtain ⟨xs, tail, hxs⟩ := exists_lexed 0 text.toList
  have hne : tail ≠ [] := by
    rw [hxs.tail_eq, if_pos h]
    exact List.cons_ne_nil _ _
  obtain ⟨-, hending, -⟩ := Scanner.scan_of_lexed hxs (Scanner.ofText text file) rfl rfl
  rw [if_neg hne] at hending
  simp only [compile, tokens, hending, Ending.diagnostic?]
  rfl

theorem events_of_lexed (h : Lexed 0 text.toList xs []) (limit : Nat) (file : Option String) :
    (compile limit file text).events = .compiling text.length ::
      ((Scanner.endingAt (depthAfter 0 xs) (({} : Mark).past text.toList)).events ++
        (Parser.fresh limit file (place file {} xs)).report.1.events) := by
  obtain ⟨htokens, hending, -⟩ := Scanner.scan_of_lexed h (Scanner.ofText text file) rfl rfl
  rw [if_pos rfl] at hending
  simp only [compile, tokens, hending, Scanner.diagnostic?_endingAt, htokens]
  rfl

/-! ## What the records say -/

section Records

variable {limit : Nat} {file : Option String} {d : Diagnostic}

/-- Only an empty text has no tokens. -/
theorem place_eq_nil_iff (h : Lexed 0 text.toList xs []) (file : Option String) :
    place file {} xs = [] ↔ text = "" := by
  have htext := h.chars_append
  rw [List.append_nil] at htext
  rw [← String.toList_eq_nil_iff, htext]
  cases xs with
  | nil => exact iff_of_true rfl rfl
  | cons x xs =>
    refine iff_of_false (List.cons_ne_nil _ _) fun hnil => x.chars_ne_nil ?_
    exact (List.append_eq_nil_iff.1 hnil).1

/-- The scanner at the end of the text. -/
theorem last_depth (h : Lexed 0 text.toList xs []) (file : Option String) :
    (Scanner.ofText text file).scan.last.depth = balance 0 (place file {} xs) := by
  rw [balance_place]
  exact TokenStream.depth_of_lexed h file

/-- All records of a compilation. -/
theorem exists_records (limit : Nat) (file : Option String) (text : String) :
    let last := (Scanner.ofText text file).scan.last
    ∃ blamed, (compile limit file text).events = .compiling text.length ::
      ((if endsLone text.toList = false ∧ 1 ≤ last.depth then
          [.leftOpen last.depth (({} : Mark).past text.toList)] else []) ++
        rejections blamed (compile limit file text).value) := by
  intro last
  cases hlone : endsLone text.toList with
  | true =>
    refine ⟨none, ?_⟩
    rw [events_of_lone hlone, compile_lone hlone]
    simp [rejections, Diagnostic.about]
  | false =>
    obtain ⟨xs, hxs⟩ := exists_lexed_of_clean hlone 0
    obtain ⟨blamed, hblamed⟩ := report_rejections (Parser.fresh limit file (place file {} xs))
    refine ⟨blamed, ?_⟩
    have hlast : last.depth = depthAfter 0 xs := TokenStream.depth_of_lexed hxs file
    rw [events_of_lexed hxs, hblamed, events_endingAt, compile_of_lexed hxs, hlast]
    simp only [true_and]

/-- A text that leaves blocks open has no tree. -/
theorem rejected_of_open (hlone : endsLone text.toList = false)
    (hopen : 1 ≤ (Scanner.ofText text file).scan.last.depth) :
    ∃ d, (compile limit file text).value = .error d ∧ d.kind = .structural := by
  obtain ⟨xs, hxs⟩ := exists_lexed_of_clean hlone 0
  rw [last_depth hxs] at hopen
  rw [compile_of_lexed hxs]
  cases hp : (Parser.fresh limit file (place file {} xs)).parse.1 with
  | ok tree => exact absurd hp (Parser.not_ok_of_balance hopen tree)
  | error f => exact ⟨_, Parser.report_of_error hp, Parser.diagnostic_kind _ f⟩

/-- Only a text with escapes that are all finished can be at fault at its end. -/
theorem clean_of_text (h : (compile limit file text).value = .error d)
    (htext : d.text ≠ "dangling escape") : endsLone text.toList = false := by
  refine Bool.eq_false_iff.2 fun hlone => ?_
  rw [compile_lone hlone] at h
  cases h
  exact htext rfl

/-- Where the end is at fault, scanner and parser have the same blocks open, at least one. -/
theorem open_at_end (h : (compile limit file text).value = .error d)
    (htext : d.text = Parser.Cause.unterminated.message ∨
      d.text = Parser.Cause.endOfInput.message ∧ text ≠ "") :
    let k := (Scanner.ofText text file).scan.last.depth
    endsLone text.toList = false ∧ 1 ≤ k ∧
      ∃ ts, (tokens file text).value = .ok ts ∧
        (Parser.fresh limit file ts).parse.2.position = ts.length ∧
        (Parser.fresh limit file ts).parse.2.depth = k ∧
        ∃ indices : List Nat, indices.length = k ∧ indices.Nodup ∧
          ∀ i, i ∈ indices ↔ Unclosed ts i := by
  intro k
  have hlone : endsLone text.toList = false := by
    refine clean_of_text h ?_
    rcases htext with htext | ⟨htext, -⟩
    · rw [htext]
      decide
    · rw [htext]
      decide
  obtain ⟨xs, hxs⟩ := exists_lexed_of_clean hlone 0
  have hk : k = balance 0 (place file {} xs) := last_depth hxs file
  rw [compile_of_lexed hxs] at h
  obtain ⟨f, hf, rfl⟩ := exists_fault_of_report h
  rw [Parser.diagnostic_text] at htext
  have hcause : f.cause = .unterminated ∨ f.cause = .endOfInput ∧ place file {} xs ≠ [] := by
    rcases htext with htext | ⟨htext, hne⟩
    · exact .inl (Parser.Cause.eq_unterminated htext)
    · exact .inr ⟨Parser.Cause.eq_endOfInput htext, mt (place_eq_nil_iff hxs file).1 hne⟩
  have hstopped := Parser.stopped_by_end hf hcause
  rw [← hk] at hstopped
  exact ⟨hlone, hstopped.1, _, tokens_of_lexed hxs file, hstopped.2⟩

end Records

/-- The records of a compilation are one that it has begun; then, where no escape dangles and blocks
are open at the end, one of how many; then, where the structure is at fault, one of that fault. A
text that leaves blocks open has no tree. Where the end of a text that is not empty is what is at
fault, the open blocks are on record, and they are those that the parser has opened and not
closed. -/
theorem compile_recorded (limit : Nat) (file : Option String) (text : String) :
    let r := compile limit file text
    let last := (Scanner.ofText text file).scan.last
    let atEnd := ({} : Mark).past text.toList
    (∃ blamed, r.events = .compiling text.length ::
      ((if endsLone text.toList = false ∧ 1 ≤ last.depth then [.leftOpen last.depth atEnd] else [])
        ++ rejections blamed r.value)) ∧
    (∀ k m, .leftOpen k m ∈ r.events → ∃ d, r.value = .error d ∧ d.kind = .structural) ∧
    (∀ d, r.value = .error d →
      d.text = "unterminated block, expected '\x7d'" ∨
        d.text = "unexpected end of input, expected text or '\x7b'" ∧ text ≠ "" →
      .leftOpen last.depth atEnd ∈ r.events ∧ ∃ ts, (tokens file text).value = .ok ts ∧
        (Parser.fresh limit file ts).parse.2.position = ts.length ∧
        (Parser.fresh limit file ts).parse.2.depth = last.depth ∧
        ∃ indices : List Nat, indices.length = last.depth ∧ indices.Nodup ∧
          ∀ i, i ∈ indices ↔ Unclosed ts i) := by
  intro r last atEnd
  obtain ⟨blamed, hevents⟩ := exists_records limit file text
  refine ⟨⟨blamed, hevents⟩, fun k m hk => ?_, fun d hd htext => ?_⟩
  · have hopen : endsLone text.toList = false ∧ 1 ≤ last.depth := by
      by_contra hopen
      rw [show r.events = _ from hevents, if_neg hopen] at hk
      simp [not_mem_rejections] at hk
    exact rejected_of_open hopen.1 hopen.2
  · obtain ⟨hlone, hopen, hts⟩ := open_at_end hd htext
    refine ⟨?_, hts⟩
    rw [show r.events = _ from hevents, if_pos ⟨hlone, hopen⟩]
    exact List.mem_cons_of_mem _ (List.mem_append_left _ (List.mem_singleton_self _))

/-- Two blocks that are never closed, the inner one with a text. -/
theorem compile_recorded_two_open :
    let text := "\x7ba\x7bb"
    let r := compile 64 none text
    ∃ d, r.value = .error d ∧ d.text = "unterminated block, expected '\x7d'" ∧
      r.events.map Event.message = ["Compiling template (4 chars)",
        "End of input with 2 unterminated block(s) at 1:5",
        "Syntax error: unterminated block, expected '\x7d' (token Token(LBRACE, '\x7b', 1:3))"] ∧
      ∃ ts, (tokens none text).value = .ok ts ∧
        (Parser.fresh 64 none ts).parse.2.depth = 2 ∧
        ∃ indices : List Nat, indices.length = 2 ∧ indices.Nodup ∧
          ∀ i, i ∈ indices ↔ Unclosed ts i := by
  intro text r
  have hlexed : Lexed 0 text.toList [.opening, .run 'a' [], .opening, .run 'b' []] [] :=
    lexed_iff_cut.2 ⟨by decide, by decide⟩
  have hlast : (Scanner.ofText text none).scan.last.depth = 2 :=
    TokenStream.depth_of_lexed hlexed none
  obtain ⟨d, hd, htext⟩ :
      ∃ d, r.value = .error d ∧ d.text = "unterminated block, expected '\x7d'" :=
    ⟨_, (compile_of_lexed hlexed 64 none).trans rfl, rfl⟩
  obtain ⟨-, -, hend⟩ := compile_recorded 64 none text
  obtain ⟨-, ts, hts, -, hdepth, hindices⟩ := hend d hd (.inl htext)
  rw [hlast] at hdepth hindices
  refine ⟨d, hd, htext, ?_, ts, hts, hdepth, hindices⟩
  rw [show r.events = _ from events_of_lexed hlexed 64 none]
  refine congrArg₂ List.cons ?_ (congrArg₂ List.cons ?_ (congrArg₂ List.cons ?_ rfl))
  all_goals decide +kernel

end Template
end Spintax
