import Mathlib.Algebra.Ring.Parity
import Mathlib.Data.List.Induction
import Spintax.Proofs.Cuts
import Spintax.Proofs.Positions
import Spintax.Proofs.Tiling

/-!
# Spintax.Proofs.Dangling

The one fault of spelling. A text has it if and only if the backslashes at its end are odd in
number: an even number of them escape each other, whatever stands before and however many blocks
are open. All tokens before it are those of the text without the last backslash.

* `backslashesAtEnd cs`: how many there are. `endsLone_iff_odd`: the parity law.
* `readout_of_lexed`, `readout_of_lone`: all that a stream on a text gives, by the lexemes of the
  text.
* `modes_of_lexed`: the modes that it leaves behind.
* `dangling_iff_odd`: when a stream fails, what it gives before, and the state it fails in.
-/

namespace Spintax

def backslashesAtEnd (cs : List Char) : Nat :=
  (cs.reverse.takeWhile (· = '\\')).length

section Parity

variable {cs : List Char}

theorem backslashesAtEnd_concat (cs : List Char) (c : Char) :
    backslashesAtEnd (cs ++ [c]) = if c = '\\' then backslashesAtEnd cs + 1 else 0 := by
  rw [backslashesAtEnd, List.reverse_append, List.reverse_singleton, List.singleton_append,
    List.takeWhile_cons]
  by_cases h : c = '\\'
  · simp [h, backslashesAtEnd]
  · simp [h]

/-- A backslash is alone behind a text that ends in no lone one. -/
theorem endsLone_concat (cs : List Char) (c : Char) :
    endsLone (cs ++ [c]) = (decide (c = '\\') && !endsLone cs) := by
  fun_induction endsLone cs with
  | case1 => simp [endsLone]
  | case2 e =>
    by_cases h : e = '\\'
    · simp [endsLone, h]
    · simp [endsLone, h]
  | case3 e cs ih => rw [List.cons_append, List.cons_append, endsLone, if_pos rfl, ih]
  | case4 d e cs hd ih => rw [List.cons_append, endsLone_cons hd, ih]

theorem endsLone_iff_odd (cs : List Char) : endsLone cs ↔ Odd (backslashesAtEnd cs) := by
  induction cs using List.reverseRecOn with
  | nil => simp [endsLone, backslashesAtEnd]
  | append_singleton cs c ih =>
    rw [endsLone_concat, backslashesAtEnd_concat]
    by_cases h : c = '\\'
    · simp [h, Nat.odd_add_one, ← ih]
    · simp [h]

end Parity

/-! ## Streams -/

namespace TokenStream

variable {text : String} {xs : List Lexeme} {tail : List Char}

/-- What a reader of a new stream gets until it ends. -/
def readout (file : Option String) (text : String) :
    List (Except Diagnostic (Option Token)) :=
  (ofText text file).trace.map fun p => p.1.found file

/-- The stream on a text after all that it gives. -/
def drained (file : Option String) (text : String) : TokenStream :=
  (ofText text file).rest.2.2

/-- The report of a lone backslash at this point. -/
def danglingAt (file : Option String) (cs : List Char) (a : Nat) : Diagnostic :=
  ⟨.lexical, "dangling escape", some (lineAt cs a), some (columnAt cs a), file⟩

theorem readout_eq (file : Option String) (text : String) :
    readout file text =
      (Scanner.ofText text file).scan.tokens.map (fun t => .ok (some t)) ++
        [(Delivery.ended (Scanner.ofText text file).scan.ending).found file] := by
  have hmap : readout file text = ((ofText text file).trace.map (·.1)).map (·.found file) := by
    rw [readout, List.map_map]
    rfl
  rw [hmap, ofText, (trace_deliveries _).1, List.map_append, List.map_map]
  rfl

/-- The modes at the end are those that the braces leave, below the one that waits for the escaped
character. -/
theorem modes_of_lexed (h : Lexed 0 text.toList xs tail) (file : Option String) :
    (drained file text).scanner.modes =
      if tail = [] then Mode.stack (depthAfter 0 xs)
      else .escape :: Mode.stack (depthAfter 0 xs) :=
  (Scanner.scan_of_lexed h (.ofText text file) rfl rfl).2.2

theorem depth_of_lexed (h : Lexed 0 text.toList xs tail) (file : Option String) :
    (drained file text).scanner.depth = depthAfter 0 xs := by
  rw [Scanner.depth, modes_of_lexed h file]
  split <;> simp

/-- A text without a lone backslash is read to its end. -/
theorem readout_of_lexed (h : Lexed 0 text.toList xs []) (file : Option String) :
    readout file text = (place file {} xs).map (fun t => .ok (some t)) ++ [.ok none] := by
  obtain ⟨htokens, hending, -⟩ := Scanner.scan_of_lexed h (Scanner.ofText text file) rfl rfl
  rw [if_pos rfl] at hending
  rw [readout_eq, htokens, hending, Delivery.found, Scanner.diagnostic?_endingAt]
  rfl

theorem readout_of_lone {init : List Char} (h : Lexed 0 text.toList xs tail) (ht : tail ≠ [])
    (hinit : text.toList = init ++ ['\\']) (file : Option String) :
    readout file text = (place file {} xs).map (fun t => .ok (some t)) ++
      [.error (danglingAt file text.toList init.length)] := by
  obtain ⟨htokens, hending, -⟩ := Scanner.scan_of_lexed h (Scanner.ofText text file) rfl rfl
  obtain ⟨init', hinit', hmark⟩ := dangling_position h ht
  obtain rfl : init = init' := (List.append_inj' (hinit.symm.trans hinit') rfl).1
  have hlone : (Scanner.ofText text file).scan.ending =
      .dangling
        ⟨lineAt text.toList init.length, columnAt text.toList init.length, init.length⟩ := by
    rw [hending, if_neg ht, ← hmark]
    rfl
  rw [readout_eq, htokens, hlone]
  rfl

/-- A stream on a text fails if and only if the backslashes at the end of the text are odd in
number. It has then given all tokens of the text without the last of them, which is where the
report stands, and waits for the character to escape, with as many blocks open as those tokens
leave. Otherwise it gives all tokens of the text, and waits for no character. -/
theorem dangling_iff_odd (file : Option String) (text : String) :
    (ofText text file).trace.getLast?.map (·.2) = some (drained file text) ∧
    ((∃ d, .error d ∈ readout file text) ↔ Odd (backslashesAtEnd text.toList)) ∧
    (Odd (backslashesAtEnd text.toList) → ∃ init ts, text.toList = init ++ ['\\'] ∧
      (Template.tokens file (String.ofList init)).value = .ok ts ∧
      readout file text =
        ts.map (fun t => .ok (some t)) ++ [.error (danglingAt file text.toList init.length)] ∧
      (Template.tokens file text).value = .error (danglingAt file text.toList init.length) ∧
      (drained file text).scanner.mode = .escape ∧
      (drained file text).scanner.depth = balance 0 ts ∧
      (drained file text).scanner.depth = (drained file (String.ofList init)).scanner.depth) ∧
    (¬ Odd (backslashesAtEnd text.toList) → ∃ ts, (Template.tokens file text).value = .ok ts ∧
      readout file text = ts.map (fun t => .ok (some t)) ++ [.ok none] ∧
      (drained file text).scanner.mode ≠ .escape ∧
      (drained file text).scanner.depth = balance 0 ts) := by
  obtain ⟨xs, tail, hxs⟩ := exists_lexed 0 text.toList
  have htail := hxs.tail_eq
  have htokens := Template.tokens_of_lexed hxs file
  have hmodes := modes_of_lexed hxs file
  have hdepth : (drained file text).scanner.depth = balance 0 (place file {} xs) := by
    rw [balance_place]
    exact depth_of_lexed hxs file
  have htrace : (ofText text file).trace.getLast?.map (·.2) = some (drained file text) := by
    rw [ofText, (trace_deliveries _).2]
    rfl
  refine ⟨htrace, ?_⟩
  rw [← endsLone_iff_odd]
  by_cases hlone : endsLone text.toList
  · rw [if_pos hlone] at htail
    subst htail
    rw [if_neg (List.cons_ne_nil _ _)] at htokens hmodes
    have hcs : text.toList = xs.flatMap Lexeme.chars ++ ['\\'] := hxs.chars_append
    have hinit : Lexed 0 (String.ofList (xs.flatMap Lexeme.chars)).toList xs [] := by
      rw [String.toList_ofList]
      exact hxs.cut.lexed
    have hreadout := readout_of_lone hxs (List.cons_ne_nil _ _) hcs file
    refine ⟨iff_of_true ⟨danglingAt file text.toList (xs.flatMap Lexeme.chars).length, ?_⟩ hlone,
      fun _ => ⟨_, _, hcs, ?_, hreadout, ?_, ?_, hdepth, ?_⟩, absurd hlone⟩
    · rw [hreadout]
      exact List.mem_append_right _ (List.mem_singleton_self _)
    · rw [Template.tokens_of_lexed hinit file, if_pos rfl]
    · rw [htokens, Mark.past_eq hcs]
      rfl
    · rw [Scanner.mode, hmodes]
      rfl
    · rw [hdepth, balance_place, depth_of_lexed hinit file]
  · rw [if_neg hlone] at htail
    subst htail
    rw [if_pos rfl] at htokens hmodes
    have hreadout := readout_of_lexed hxs file
    refine ⟨iff_of_false ?_ hlone, fun h => absurd h hlone,
      fun _ => ⟨_, htokens, hreadout, ?_, hdepth⟩⟩
    · rintro ⟨d, hd⟩
      rw [hreadout] at hd
      simp at hd
    · exact Scanner.mode_ne_escape hmodes

end TokenStream

end Spintax
