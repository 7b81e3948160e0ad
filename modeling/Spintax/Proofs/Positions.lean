import Spintax.Proofs.Resumption
import Spintax.Proofs.ScannerLexemes

/-!
# Spintax.Proofs.Positions

Lines and columns told from the text alone. A mark is moved on by every piece that is read, which
may hold many newlines, one, or none. The line and the column it comes to are those found by
looking back from the same point at all that stands before it.

* `lineAt cs a`, `columnAt cs a`: the line and the column of the point `a`.
* `Mark.past_take`: the mark behind the first `a` characters.
* `position_ne`: two points of a text differ in the line or in the column.
* `positions_exact`: the lines and the columns of the tokens of a text, of the report of a dangling
  escape, and of the record of blocks that are left open.
-/

namespace Spintax

/-- One more than the newlines before the point. -/
def lineAt (cs : List Char) (a : Nat) : Nat :=
  1 + (cs.take a).count '\n'

/-- The index of the last newline before the point. -/
def lastNewline? (cs : List Char) (a : Nat) : Option Nat :=
  (List.range a).reverse.find? fun i => cs[i]? = some '\n'

/-- How far the point is from the last newline before it, which a text without one has right before
its start. -/
def columnAt (cs : List Char) (a : Nat) : Nat :=
  match lastNewline? cs a with
  | some i => a - i
  | none => a + 1

section Points

variable {cs : List Char} {a b : Nat} {c : Char}

theorem lineAt_succ (h : cs[a]? = some c) :
    lineAt cs (a + 1) = lineAt cs a + if c = '\n' then 1 else 0 := by
  rw [lineAt, List.take_add_one, h, Option.toList_some, List.count_append, List.count_singleton,
    lineAt, Nat.add_assoc]
  simp only [beq_iff_eq]

theorem lastNewline?_succ (cs : List Char) (a : Nat) :
    lastNewline? cs (a + 1) = if cs[a]? = some '\n' then some a else lastNewline? cs a := by
  rw [lastNewline?, List.range_succ, List.reverse_append, List.reverse_singleton,
    List.singleton_append, List.find?_cons]
  by_cases h : cs[a]? = some '\n'
  · simp [h]
  · simp [h, lastNewline?]

theorem lastNewline?_lt {i : Nat} (h : lastNewline? cs a = some i) : i < a := by
  have hmem := List.mem_of_find?_eq_some h
  rwa [List.mem_reverse, List.mem_range] at hmem

theorem columnAt_succ (h : cs[a]? = some c) :
    columnAt cs (a + 1) = if c = '\n' then 1 else columnAt cs a + 1 := by
  rw [columnAt, lastNewline?_succ, h]
  by_cases hc : c = '\n'
  · simp [hc]
  · simp only [hc, Option.some.injEq, if_false, columnAt]
    cases hl : lastNewline? cs a with
    | none => rfl
    | some i =>
      have := lastNewline?_lt hl
      simp only
      omega

/-- What a mark is moved to, looked up from behind. -/
theorem Mark.past_take (h : a ≤ cs.length) :
    ({} : Mark).past (cs.take a) = ⟨lineAt cs a, columnAt cs a, a⟩ := by
  induction a with
  | zero => rfl
  | succ a ih =>
    have hc : cs[a]? = some cs[a] := List.getElem?_eq_getElem h
    rw [List.take_add_one, hc, Option.toList_some, past_append, ih (Nat.le_of_lt h), past_cons,
      past_nil, next, lineAt_succ hc, columnAt_succ hc]
    by_cases hn : cs[a] = '\n'
    · simp only [if_pos hn]
    · simp only [if_neg hn, Nat.add_zero]

theorem Mark.past_eq {before after : List Char} (h : cs = before ++ after) :
    ({} : Mark).past before =
      ⟨lineAt cs before.length, columnAt cs before.length, before.length⟩ := by
  have htake : cs.take before.length = before := by rw [h, List.take_left]
  have hle : before.length ≤ cs.length := by simp [h]
  rw [← Mark.past_take hle, htake]

/-- A mark goes down a line, or to the right. -/
theorem Mark.past_ahead (m : Mark) (cs : List Char) :
    m.line < (m.past cs).line ∨
      (m.past cs).line = m.line ∧ (m.past cs).column = m.column + cs.length := by
  induction cs generalizing m with
  | nil => exact .inr ⟨rfl, rfl⟩
  | cons c cs ih =>
    have hnext := ih (m.next c)
    rw [past_cons, List.length_cons]
    by_cases hc : c = '\n'
    · simp only [next, if_pos hc] at hnext ⊢
      omega
    · simp only [next, if_neg hc] at hnext ⊢
      omega

/-- Two points of a text differ in the line or in the column. -/
theorem position_ne (h : a < b) (hb : b ≤ cs.length) :
    (lineAt cs a, columnAt cs a) ≠ (lineAt cs b, columnAt cs b) := by
  have hsplit : cs.take b = cs.take a ++ (cs.take b).drop a := by
    have htake : (cs.take b).take a = cs.take a := by
      rw [List.take_take, Nat.min_eq_left (Nat.le_of_lt h)]
    rw [← htake, List.take_append_drop]
  have hlength : ((cs.take b).drop a).length = b - a := by
    rw [List.length_drop, List.length_take, Nat.min_eq_left hb]
  have hahead := (({} : Mark).past (cs.take a)).past_ahead ((cs.take b).drop a)
  rw [← Mark.past_append, ← hsplit, Mark.past_take hb,
    Mark.past_take (Nat.le_trans (Nat.le_of_lt h) hb), hlength] at hahead
  simp only at hahead
  intro heq
  obtain ⟨hline, hcolumn⟩ := Prod.mk.inj heq
  omega

/-- A carriage return is a character like any other. -/
example : lineAt "a\r\nbc".toList 4 = 2 ∧ columnAt "a\r\nbc".toList 4 = 2 ∧
    columnAt "a\r\nbc".toList 2 = 3 := by decide

end Points

/-! ## Tokens -/

section Tokens

variable {file : Option String} {m : Mark} {xs : List Lexeme} {t : Token}

theorem exists_of_mem_place (h : t ∈ place file m xs) :
    ∃ before x after, xs = before ++ x :: after ∧
      t = x.token file (m.past (before.flatMap Lexeme.chars)) := by
  obtain ⟨us, vs, h⟩ := List.append_of_mem h
  obtain ⟨before, rest, rfl, -, hrest⟩ := append_eq_place h.symm
  cases rest with
  | nil => cases hrest
  | cons x after =>
    obtain ⟨rfl, -⟩ := List.cons.inj hrest
    exact ⟨before, x, after, rfl, rfl⟩

/-- No two tokens start at the same offset. -/
theorem pairwise_start_place (file : Option String) (m : Mark) (xs : List Lexeme) :
    (place file m xs).Pairwise fun t u => t.location.start < u.location.start := by
  induction xs generalizing m with
  | nil => exact .nil
  | cons x xs ih =>
    refine .cons ?_ (ih _)
    intro u hu
    obtain ⟨before, y, after, -, rfl⟩ := exists_of_mem_place hu
    have hlength := List.length_pos_iff.2 x.chars_ne_nil
    simp only [Lexeme.token, Mark.past_offset]
    omega

end Tokens

/-- The token stands at `a`, with the line and the column of that point. -/
structure Token.StandsAt (cs : List Char) (t : Token) (a : Nat) : Prop where
  lt : a < cs.length
  start : t.location.start = a
  line : t.location.line = lineAt cs a
  column : t.location.column = columnAt cs a

theorem Token.StandsAt.position_ne {cs : List Char} {t u : Token} {a b : Nat}
    (h : t.StandsAt cs a) (h' : u.StandsAt cs b) (hlt : t.location.start < u.location.start) :
    (t.location.line, t.location.column) ≠ (u.location.line, u.location.column) := by
  rw [h.start, h'.start] at hlt
  rw [h.line, h.column, h'.line, h'.column]
  intro heq
  obtain ⟨hline, hcolumn⟩ := Prod.mk.inj heq
  refine Spintax.position_ne (Int.ofNat_lt.1 hlt) (Nat.le_of_lt h'.lt) ?_
  rw [Int.ofNat_inj.1 hline, Int.ofNat_inj.1 hcolumn]

theorem standsAt_of_mem_place {file : Option String} {xs : List Lexeme} {cs tail : List Char}
    (hcs : cs = xs.flatMap Lexeme.chars ++ tail) {t : Token} (h : t ∈ place file {} xs) :
    ∃ a, t.StandsAt cs a := by
  obtain ⟨before, x, after, rfl, rfl⟩ := exists_of_mem_place h
  have hbefore : cs = before.flatMap Lexeme.chars ++ (x.chars ++
      (after.flatMap Lexeme.chars ++ tail)) := by
    rw [hcs, List.flatMap_append, List.flatMap_cons]
    simp only [List.append_assoc]
  have hpositive := List.length_pos_iff.2 x.chars_ne_nil
  refine ⟨(before.flatMap Lexeme.chars).length, ?_, ?_, ?_, ?_⟩
  · rw [hbefore, List.length_append, List.length_append]
    omega
  · simp only [Lexeme.token, Mark.past_eq hbefore]
  · simp only [Lexeme.token, Mark.past_eq hbefore]
  · simp only [Lexeme.token, Mark.past_eq hbefore]

/-! ## What a stream gives -/

namespace TokenStream

variable {text : String} {xs : List Lexeme} {tail : List Char}

/-- A stream on a text gives the lexemes of the text, each at its place, and one ending. -/
theorem trace_of_lexed (h : Lexed 0 text.toList xs tail) (file : Option String) :
    (readings (ofText text file).trace).map (·.1) = place file {} xs ∧
      endings (ofText text file).trace =
        [if tail = [] then Scanner.endingAt (depthAfter 0 xs) (({} : Mark).past text.toList)
        else .dangling (({} : Mark).past (xs.flatMap Lexeme.chars))] := by
  obtain ⟨hreadings, hendings, -⟩ := trace_scan (.ofText text file)
  obtain ⟨htokens, hending, -⟩ := Scanner.scan_of_lexed h (.ofText text file) rfl rfl
  exact ⟨hreadings.trans htokens, hendings.trans (congrArg (fun e => [e]) hending)⟩

theorem ending_of_lexed {file : Option String} {e : Ending} {s : TokenStream}
    (h : Lexed 0 text.toList xs tail) (hp : (.ended e, s) ∈ (ofText text file).trace) :
    e = if tail = [] then Scanner.endingAt (depthAfter 0 xs) (({} : Mark).past text.toList)
      else .dangling (({} : Mark).past (xs.flatMap Lexeme.chars)) := by
  have he := mem_endings hp
  rw [(trace_of_lexed h file).2] at he
  exact List.mem_singleton.1 he

end TokenStream

/-- The backslash that is blamed is the last character. -/
theorem dangling_position {cs tail : List Char} {xs : List Lexeme} (h : Lexed 0 cs xs tail)
    (htail : tail ≠ []) :
    ∃ init, cs = init ++ ['\\'] ∧
      ({} : Mark).past (xs.flatMap Lexeme.chars) =
        ⟨lineAt cs init.length, columnAt cs init.length, init.length⟩ := by
  have heq := h.tail_eq
  by_cases hlone : endsLone cs
  · rw [if_pos hlone] at heq
    have hcs := h.chars_append
    rw [heq] at hcs
    exact ⟨_, hcs, Mark.past_eq hcs⟩
  · rw [if_neg hlone] at heq
    exact absurd heq htail

/-- The lines and the columns that a stream on a text tells: of its tokens, of a lone backslash at
the end, and of the end where blocks are open. Each is that of the point in the text, and no two
tokens have the same. -/
theorem positions_exact (file : Option String) (text : String) :
    (∀ p ∈ (TokenStream.ofText text file).trace, ∀ t, p.1.found file = .ok (some t) →
      ∃ a, t.StandsAt text.toList a) ∧
    (∀ p ∈ (TokenStream.ofText text file).trace, ∀ d, p.1.found file = .error d →
      ∃ init, text.toList = init ++ ['\\'] ∧
        d.line = some ↑(lineAt text.toList init.length) ∧
        d.column = some ↑(columnAt text.toList init.length)) ∧
    (∀ p ∈ (TokenStream.ofText text file).trace, ∀ e ∈ p.1.events, ∃ blocks : Nat, e.message =
      "End of input with " ++ toString blocks ++ " unterminated block(s) at "
        ++ toString (lineAt text.toList text.toList.length) ++ ":"
        ++ toString (columnAt text.toList text.toList.length)) ∧
    ((TokenStream.readings (TokenStream.ofText text file).trace).map (·.1)).Pairwise fun t u =>
      (t.location.line, t.location.column) ≠ (u.location.line, u.location.column) := by
  obtain ⟨xs, tail, hxs⟩ := exists_lexed 0 text.toList
  obtain ⟨htokens, -⟩ := TokenStream.trace_of_lexed hxs file
  have hstands : ∀ t ∈ place file {} xs, ∃ a, t.StandsAt text.toList a :=
    fun t ht => standsAt_of_mem_place hxs.chars_append ht
  refine ⟨?_, ?_, ?_, ?_⟩
  · rintro ⟨delivery, s⟩ hp t hfound
    obtain rfl := TokenStream.Delivery.eq_token_of_found hfound
    have ht := TokenStream.mem_readings hp
    rw [htokens] at ht
    exact hstands t ht
  · rintro ⟨delivery, s⟩ hp d hfound
    obtain ⟨e, rfl, hd⟩ := TokenStream.Delivery.ended_of_found hfound
    rw [TokenStream.ending_of_lexed hxs hp] at hd
    by_cases htail : tail = []
    · rw [if_pos htail, Scanner.diagnostic?_endingAt] at hd
      cases hd
    · obtain ⟨init, hcs, hmark⟩ := dangling_position hxs htail
      rw [if_neg htail, hmark] at hd
      cases hd
      exact ⟨init, hcs, rfl, rfl⟩
  · rintro ⟨delivery, s⟩ hp event he
    obtain ⟨e, rfl, he⟩ := TokenStream.Delivery.ended_of_mem_events he
    rw [TokenStream.ending_of_lexed hxs hp] at he
    by_cases htail : tail = []
    · rw [if_pos htail, Mark.past_eq (List.append_nil text.toList).symm] at he
      obtain rfl := Scanner.mem_events_endingAt he
      exact ⟨_, rfl⟩
    · rw [if_neg htail] at he
      cases he
  · rw [htokens]
    refine (pairwise_start_place file {} xs).imp_of_mem ?_
    intro t u ht hu hlt
    obtain ⟨a, ha⟩ := hstands t ht
    obtain ⟨b, hb⟩ := hstands u hu
    exact ha.position_ne hb hlt

end Spintax
