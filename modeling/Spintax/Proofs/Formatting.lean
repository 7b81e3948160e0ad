import Mathlib.Data.List.DropRight
import Spintax.Proofs.Records

/-!
# Spintax.Proofs.Formatting

How a report is shown: the known parts of its place with a colon between them, a space, and its
text. All colons behind the place are dropped at once, so a file name that ends in one loses it
where no line is known.

* `Diagnostic.known`, `Diagnostic.plain`: the known parts, and the form with all of them.
* `dropColons_concat`, `dropColons_eq_self_iff`: what is dropped.
* `Diagnostic.Clipped`: only a file name is known, and it ends in a colon.
* `formatted_eq_plain_iff`: these reports, and no others, are shown in another form.
* `Template.known_of_compile`: what is known of the place of a report about a text.
* `formatted_place`: the place in front of any report, and of one about a text.
* `formatted_place_clipped`: a report about a text that loses a colon.
-/

namespace Spintax
namespace Diagnostic

/-- The known parts of the place. A column counts only with a line. -/
def known (d : Diagnostic) : List String :=
  (shownFile d.file).toList ++
    match d.line, d.column with
    | some l, some c => [toString l, toString c]
    | some l, none => [toString l]
    | none, _ => []

/-- The whole place in front of the text. -/
def plain (d : Diagnostic) : String :=
  if d.known = [] then d.text else ":".intercalate d.known ++ " " ++ d.text

def EndsInColon (s : String) : Prop :=
  s.toList.getLast? = some ':'

/-- Only a file name is known, and it ends in a colon. -/
def Clipped (d : Diagnostic) : Prop :=
  d.line = none ∧ ∃ name, shownFile d.file = some name ∧ EndsInColon name

/-! ## Colons at the end -/

section Colons

variable {s t : String}

theorem dropColons_eq (s : String) : dropColons s = String.ofList (s.toList.rdropWhile (· = ':')) :=
  rfl

theorem dropColons_concat (s : String) : dropColons (s ++ ":") = dropColons s := by
  have hcolon : (s ++ ":").toList = s.toList ++ [':'] := by rw [String.toList_append]; rfl
  rw [dropColons_eq, hcolon, List.rdropWhile_concat_pos _ _ _ (by decide), dropColons_eq]

theorem endsInColon_iff : EndsInColon s ↔ ∃ hl : s.toList ≠ [], s.toList.getLast hl = ':' := by
  constructor
  · intro h
    have hl : s.toList ≠ [] := by
      intro hnil
      rw [EndsInColon, hnil] at h
      cases h
    exact ⟨hl, (List.getLast_eq_iff_getLast?_eq_some hl).2 h⟩
  · rintro ⟨hl, h⟩
    exact (List.getLast_eq_iff_getLast?_eq_some hl).1 h

theorem dropColons_eq_self_iff : dropColons s = s ↔ ¬ EndsInColon s := by
  rw [← String.toList_inj, dropColons_eq, String.toList_ofList, List.rdropWhile_eq_self_iff,
    endsInColon_iff]
  simp

/-- The first of the colons that are dropped. -/
theorem exists_colon (h : EndsInColon s) : ∃ more, s = dropColons s ++ (":" ++ more) := by
  have hne : s.toList.rtakeWhile (· = ':') ≠ [] := by
    rw [Ne, List.rtakeWhile_eq_nil_iff]
    simpa using endsInColon_iff.1 h
  obtain ⟨c, cs, hcs⟩ := List.exists_cons_of_ne_nil hne
  obtain rfl : c = ':' := by
    have hc := List.mem_rtakeWhile_imp (hcs ▸ List.mem_cons_self : c ∈ _)
    simpa using hc
  refine ⟨String.ofList cs, ?_⟩
  have hlist : s.toList = s.toList.rdropWhile (· = ':') ++ (':' :: cs) := by
    rw [← hcs, List.rdropWhile_append_rtakeWhile]
  rw [← String.toList_inj, String.toList_append, String.toList_append, dropColons_eq]
  simp only [String.toList_ofList]
  exact hlist

/-- A name that loses its colon is not found in front. -/
theorem ne_append_of_endsInColon (h : EndsInColon s) (t rest : String) :
    dropColons s ++ " " ++ t ≠ s ++ rest := by
  intro heq
  obtain ⟨more, hs⟩ := exists_colon h
  have htails : " " ++ t = ":" ++ (more ++ rest) := by
    refine (String.append_right_inj (dropColons s)).1 ?_
    calc dropColons s ++ (" " ++ t)
      _ = dropColons s ++ " " ++ t := (String.append_assoc ..).symm
      _ = s ++ rest := heq
      _ = dropColons s ++ (":" ++ more) ++ rest := congrArg (· ++ rest) hs
      _ = dropColons s ++ (":" ++ (more ++ rest)) := by simp only [String.append_assoc]
  have hheads := congrArg (fun s => s.toList.head?) htails
  simp at hheads

/-- A number ends in a digit. -/
theorem not_endsInColon_repr (n : Nat) : ¬ EndsInColon n.repr := by
  intro h
  have hmem : ':' ∈ Nat.toDigits 10 n := by
    rw [EndsInColon, Nat.repr, String.toList_ofList] at h
    exact List.mem_of_getLast? h
  exact absurd (Nat.isDigit_of_mem_toDigits (by decide) (by decide) hmem) (by decide)

theorem endsInColon_append (hne : t ≠ "") : EndsInColon (s ++ t) ↔ EndsInColon t := by
  have hlist : t.toList ≠ [] := fun h => hne (String.toList_eq_nil_iff.1 h)
  rw [EndsInColon, EndsInColon, String.toList_append, List.getLast?_append_of_ne_nil _ hlist]

theorem repr_ne_empty (n : Nat) : n.repr ≠ "" := by
  rw [Ne, ← String.toList_eq_nil_iff, Nat.repr, String.toList_ofList]
  exact Nat.toDigits_ne_nil

theorem toString_ne_empty (n : Int) : toString n ≠ "" := by
  cases n with
  | ofNat n => exact repr_ne_empty n
  | negSucc n =>
    show "-" ++ n.succ.repr ≠ ""
    simp

theorem not_endsInColon_toString (n : Int) : ¬ EndsInColon (toString n) := by
  cases n with
  | ofNat n => exact not_endsInColon_repr n
  | negSucc n =>
    show ¬ EndsInColon ("-" ++ n.succ.repr)
    rw [endsInColon_append (repr_ne_empty _)]
    exact not_endsInColon_repr _

end Colons

/-! ## Reports -/

section Reports

variable {d : Diagnostic}

/-- A colon stands after each known part. -/
theorem place_eq_join (d : Diagnostic) : d.place = String.join (d.known.map (· ++ ":")) := by
  obtain ⟨kind, text, line, column, file⟩ := d
  simp only [place, known]
  cases shownFile file <;> cases line <;> cases column <;> simp [String.append_assoc]

/-- All of these colons but the last one are between parts. -/
theorem join_colons {parts : List String} (h : parts ≠ []) :
    String.join (parts.map (· ++ ":")) = ":".intercalate parts ++ ":" := by
  induction parts with
  | nil => exact absurd rfl h
  | cons part parts ih =>
    rw [List.map_cons, String.join_cons]
    cases parts with
    | nil => rw [String.intercalate_singleton, List.map_nil, String.join_nil, String.append_empty]
    | cons next parts =>
      rw [ih (List.cons_ne_nil _ _), String.intercalate_cons_cons, ← String.append_assoc]

theorem formatted_eq (h : d.known ≠ []) :
    d.formatted = dropColons (":".intercalate d.known) ++ " " ++ d.text := by
  have hplace : d.place = ":".intercalate d.known ++ ":" := by rw [place_eq_join, join_colons h]
  have hne : d.place ≠ "" := by
    rw [hplace]
    simp
  rw [formatted, if_neg hne, hplace, dropColons_concat]

/-- Joined parts end in the last of them. -/
theorem exists_front {parts : List String} {p : String} (h : parts.getLast? = some p) :
    ∃ front, ":".intercalate parts = front ++ p := by
  induction parts with
  | nil => cases h
  | cons part parts ih =>
    cases parts with
    | nil =>
      obtain rfl : part = p := Option.some.inj h
      exact ⟨"", by rw [String.intercalate_singleton, String.empty_append]⟩
    | cons next parts =>
      rw [List.getLast?_cons_cons] at h
      obtain ⟨front, hfront⟩ := ih h
      refine ⟨part ++ ":" ++ front, ?_⟩
      rw [String.intercalate_cons_cons, hfront, ← String.append_assoc]

theorem ne_empty_of_shownFile {file : Option String} {name : String}
    (h : shownFile file = some name) : name ≠ "" := by
  obtain ⟨-, hne⟩ := Option.filter_eq_some_iff.1 h
  rintro rfl
  cases hne

/-- The last known part is a number, unless only a file name is known. -/
theorem exists_last_known (h : d.known ≠ []) :
    ∃ p, d.known.getLast? = some p ∧ p ≠ "" ∧ (EndsInColon p ↔ d.Clipped) := by
  obtain ⟨kind, text, line, column, file⟩ := d
  cases line with
  | some l =>
    have hclipped : ¬ Clipped ⟨kind, text, some l, column, file⟩ := fun h => by cases h.1
    cases column with
    | some c =>
      refine ⟨toString c, by simp [known], toString_ne_empty c, ?_⟩
      exact iff_of_false (not_endsInColon_toString c) hclipped
    | none =>
      refine ⟨toString l, by simp [known], toString_ne_empty l, ?_⟩
      exact iff_of_false (not_endsInColon_toString l) hclipped
  | none =>
    cases hfile : shownFile file with
    | none => simp [known, hfile] at h
    | some name =>
      exact ⟨name, by simp [known, hfile], ne_empty_of_shownFile hfile, by simp [Clipped, hfile]⟩

theorem endsInColon_known (h : d.known ≠ []) :
    EndsInColon (":".intercalate d.known) ↔ d.Clipped := by
  obtain ⟨p, hp, hne, hiff⟩ := exists_last_known h
  obtain ⟨front, hfront⟩ := exists_front hp
  rw [hfront, endsInColon_append hne, hiff]

theorem formatted_eq_plain_iff : d.formatted = d.plain ↔ ¬ d.Clipped := by
  by_cases h : d.known = []
  · have hclipped : ¬ d.Clipped := by
      rintro ⟨-, name, hname, -⟩
      simp [known, hname] at h
    have hplace : d.place = "" := by rw [place_eq_join, h]; rfl
    rw [formatted, if_pos hplace, plain, if_pos h]
    exact iff_of_true rfl hclipped
  · rw [formatted_eq h, plain, if_neg h, String.append_left_inj, String.append_left_inj,
      dropColons_eq_self_iff, endsInColon_known h]

theorem formatted_of_name {name : String} (hl : d.line = none)
    (hn : shownFile d.file = some name) : d.formatted = dropColons name ++ " " ++ d.text := by
  have hknown : d.known = [name] := by simp [known, hl, hn]
  rw [formatted_eq (by simp [hknown]), hknown, String.intercalate_singleton]

/-- A place with a line and a column is shown as locations are. -/
theorem formatted_eq_describe {l c : Int} (hl : d.line = some l) (hc : d.column = some c)
    (start stop : Int) :
    d.formatted = (⟨l, c, start, stop, d.file⟩ : Location).describe ++ " " ++ d.text := by
  have hclipped : ¬ d.Clipped := fun h => by
    rw [h.1] at hl
    cases hl
  rw [formatted_eq_plain_iff.2 hclipped, plain, known, hl, hc, Location.describe]
  cases shownFile d.file with
  | none => simp [String.intercalate_cons_cons, String.append_assoc]
  | some name => simp [String.intercalate_cons_cons, String.append_assoc]

end Reports
end Diagnostic

/-! ## Reports about a text -/

namespace Parser

/-- Where there are tokens, one of them is blamed. -/
theorem exists_blamed {limit : Nat} {file : Option String} {tokens : List Token} {f : Fault}
    (h : (fresh limit file tokens).parse.1 = .error f) (hne : tokens ≠ []) :
    ∃ i, f.blamed = some i := by
  obtain ⟨i, t, hi, -⟩ | ⟨i, t, hi, -⟩ | ⟨-, -, hend⟩ := parse_fault_cases h
  · exact ⟨i, hi⟩
  · exact ⟨i, hi⟩
  · obtain ⟨hnil, -⟩ | ⟨-, -, hi⟩ | ⟨-, -, i, hi, -⟩ := hend
    · exact absurd hnil hne
    · exact ⟨_, hi⟩
    · exact ⟨i, hi⟩

end Parser

namespace Template

open Diagnostic (EndsInColon dropColons)

variable {limit : Nat} {file : Option String} {text : String} {d : Diagnostic}

/-- What is known of the place of a report: all of it, or no more than the file where the text is
empty. -/
theorem known_of_compile (h : (compile limit file text).value = .error d)
    (hf : (shownFile file).isSome) :
    d.file = file ∧ (text = "" ∧ d.line = none ∨
      text ≠ "" ∧ ∃ l c, d.line = some l ∧ d.column = some c) := by
  cases hlone : endsLone text.toList with
  | true =>
    rw [compile_lone hlone] at h
    cases h
    refine ⟨rfl, .inr ⟨?_, _, _, rfl, rfl⟩⟩
    rintro rfl
    cases hlone
  | false =>
    obtain ⟨xs, hxs⟩ := exists_lexed_of_clean hlone 0
    rw [compile_of_lexed hxs] at h
    obtain ⟨f, hfault, rfl⟩ := exists_fault_of_report h
    have hblamed := Parser.blamed_mem (Parser.parse_fault_cases hfault)
    have hplaced : Parser.Placed file (place file {} xs)
        ((Parser.fresh limit file (place file {} xs)).diagnostic f) f.blamed :=
      Parser.diagnostic_placed hblamed
    by_cases htext : text = ""
    · rw [(place_eq_nil_iff hxs file).2 htext] at hblamed hplaced ⊢
      obtain hnone | ⟨i, t, -, ht⟩ := hblamed
      · rw [hnone] at hplaced
        obtain ⟨hline, -, hfile⟩ := hplaced
        exact ⟨hfile, .inl ⟨htext, hline⟩⟩
      · cases ht
    · obtain ⟨i, hi⟩ := Parser.exists_blamed hfault (mt (place_eq_nil_iff hxs file).1 htext)
      rw [hi] at hplaced
      obtain ⟨t, -, hline, hcolumn, hfile⟩ := hplaced
      rw [if_pos hf] at hfile
      exact ⟨hfile, .inr ⟨htext, _, _, hline, hcolumn⟩⟩

/-- The name of the file stands in front of a report about a text, unless the text is empty and the
name ends in a colon. -/
theorem name_in_front_iff {name : String} (hname : name ≠ "")
    (h : (compile limit (some name) text).value = .error d) :
    (∃ rest, d.formatted = name ++ (":" ++ rest) ∨ d.formatted = name ++ (" " ++ rest)) ↔
      ¬ (text = "" ∧ EndsInColon name) := by
  have hshown : shownFile (some name) = some name := by simp [shownFile, hname]
  obtain ⟨hfile, ⟨htext, hline⟩ | ⟨htext, l, c, hline, hcolumn⟩⟩ :=
    known_of_compile h (by rw [hshown]; rfl)
  · have hformatted : d.formatted = dropColons name ++ " " ++ d.text :=
      Diagnostic.formatted_of_name hline (by rw [hfile, hshown])
    by_cases hcolon : EndsInColon name
    · refine iff_of_false ?_ (not_not_intro ⟨htext, hcolon⟩)
      rw [hformatted]
      rintro ⟨rest, hrest | hrest⟩
      · exact Diagnostic.ne_append_of_endsInColon hcolon _ _ hrest
      · exact Diagnostic.ne_append_of_endsInColon hcolon _ _ hrest
    · refine iff_of_true ⟨d.text, .inr ?_⟩ fun h => hcolon h.2
      rw [hformatted, Diagnostic.dropColons_eq_self_iff.2 hcolon, String.append_assoc]
  · refine iff_of_true ?_ fun h => htext h.1
    refine ⟨toString l ++ ":" ++ toString c ++ " " ++ d.text, .inl ?_⟩
    rw [Diagnostic.formatted_eq_describe hline hcolumn 0 0, hfile, Location.describe, hshown]
    simp only [String.append_assoc]

/-- Any report is shown with its whole place in front, unless only the file is known and its name
ends in a colon. That name loses all colons at its end. A place with a line and a column is shown as
locations are. A report about a text is shown with the name of its file in front, unless the text is
empty and the name ends in a colon. -/
theorem formatted_place (d : Diagnostic) :
    (d.formatted = d.plain ↔ ¬ d.Clipped) ∧
    (∀ name, d.line = none → shownFile d.file = some name →
      d.formatted = dropColons name ++ " " ++ d.text) ∧
    (∀ l c start stop, d.line = some l → d.column = some c →
      d.formatted = (⟨l, c, start, stop, d.file⟩ : Location).describe ++ " " ++ d.text) ∧
    (∀ limit name text, name ≠ "" → (compile limit (some name) text).value = .error d →
      ((∃ rest, d.formatted = name ++ (":" ++ rest) ∨ d.formatted = name ++ (" " ++ rest)) ↔
        ¬ (text = "" ∧ EndsInColon name))) :=
  ⟨Diagnostic.formatted_eq_plain_iff,
    fun _ hl hn => Diagnostic.formatted_of_name hl hn,
    fun _ _ start stop hl hc => Diagnostic.formatted_eq_describe hl hc start stop,
    fun _ _ _ hname h => name_in_front_iff hname h⟩

/-- A stray brace in the second line of a file whose name ends in a colon. -/
theorem formatted_place_second_line :
    let d : Diagnostic :=
      ⟨.structural, "unexpected '\x7d' outside of a block", some 2, some 1, some "a:"⟩
    (compile 1 (some "a:") "\n\x7d").value = .error d ∧ d.formatted = d.plain ∧
      d.formatted = "a::2:1 unexpected '\x7d' outside of a block" ∧
      ∃ rest, d.formatted = "a:" ++ (":" ++ rest) ∨ d.formatted = "a:" ++ (" " ++ rest) := by
  intro d
  have hlexed : Lexed 0 "\n\x7d".toList [.run '\n' [], .closing] [] :=
    lexed_iff_cut.2 ⟨by decide, by decide⟩
  have hd : (compile 1 (some "a:") "\n\x7d").value = .error d :=
    (compile_of_lexed hlexed 1 (some "a:")).trans (congrArg Except.error rfl)
  obtain ⟨hplain, -, hdescribe, hfront⟩ := formatted_place d
  refine ⟨hd, hplain.2 fun h => Option.some_ne_none _ h.1, ?_, ?_⟩
  · rw [hdescribe 2 1 0 0 rfl rfl]
    decide +kernel
  · exact (hfront 1 "a:" "\n\x7d" (by decide) hd).2 fun h => absurd h.1 (by decide)

/-- The same file with nothing in it. The report stands for another file name. -/
theorem formatted_place_clipped :
    let d : Diagnostic :=
      ⟨.structural, "unexpected end of input, expected text or '\x7b'", none, none, some "a:"⟩
    (compile 1 (some "a:") "").value = .error d ∧
      d.plain = "a: unexpected end of input, expected text or '\x7b'" ∧
      d.formatted = "a unexpected end of input, expected text or '\x7b'" ∧
      ¬ ∃ rest, d.formatted = "a:" ++ (":" ++ rest) ∨ d.formatted = "a:" ++ (" " ++ rest) := by
  intro d
  have hd : (compile 1 (some "a:") "").value = .error d :=
    (compile_of_lexed .nil 1 (some "a:")).trans rfl
  refine ⟨hd, ?_, ?_, ?_⟩
  · decide +kernel
  · decide +kernel
  · exact fun h => (name_in_front_iff (by decide) hd).1 h ⟨rfl, rfl⟩

end Template
end Spintax
