import Spintax.Proofs.Cuts
import Spintax.Proofs.ParserCorrect
import Spintax.Proofs.Sameness
import Spintax.Proofs.ScannerLexemes

/-!
# Spintax.Proofs.Spelling

Texts and trees meet in the symbols that both are written with. A text compiles exactly if a tree
of the shape of the grammar is written with the symbols of its lexemes, and that tree is the
result.

* `Lexeme.symbol`: what the grammar sees of a lexeme.
* `Template.compile_of_cut`, `Template.exists_cut_of_compile`: from lexemes to a tree, and back.
* `Tree.same_of_symbols`: a tree of the shape of the grammar is known by its symbols.
* `Tree.level_symbols`: such a tree closes and divides no blocks but its own.
-/

namespace Spintax

namespace Lexeme

def symbol (x : Lexeme) : Symbol :=
  match x.kind with
  | .opening => .opening
  | .closing => .closing
  | .bar => .bar
  | .text => .text (String.ofList x.value)

@[simp] theorem symbol_token (file : Option String) (m : Mark) (x : Lexeme) :
    (x.token file m).symbol = x.symbol := rfl

@[simp] theorem kind_symbol (x : Lexeme) : x.symbol.kind = x.kind := by
  cases x <;> rfl

/-- The text of two runs, one behind the other. -/
theorem symbol_run_append (c e : Char) (cs es : List Char) :
    (run c (cs ++ e :: es)).symbol =
      .text (String.ofList (c :: cs) ++ String.ofList (e :: es)) := by
  rw [← String.ofList_append]
  rfl

end Lexeme

theorem map_symbol_place (file : Option String) (m : Mark) (xs : List Lexeme) :
    (place file m xs).map Token.symbol = xs.map Lexeme.symbol := by
  induction xs generalizing m with
  | nil => rfl
  | cons x xs ih => simp [place, ih]

theorem map_kind_symbol (xs : List Lexeme) :
    (xs.map Lexeme.symbol).map Symbol.kind = xs.map Lexeme.kind := by
  simp

/-! ## Symbols of trees -/

theorem Symbol.exists_token (x : Symbol) : ∃ t : Token, t.symbol = x := by
  cases x with
  | text content => exact ⟨⟨.text, content, .unknown⟩, rfl⟩
  | opening => exact ⟨⟨.opening, "", .unknown⟩, rfl⟩
  | closing => exact ⟨⟨.closing, "", .unknown⟩, rfl⟩
  | bar => exact ⟨⟨.bar, "", .unknown⟩, rfl⟩

namespace Tree

theorem symbolsAll_append (ts us : List Tree) :
    symbolsAll (ts ++ us) = symbolsAll ts ++ symbolsAll us := by
  simp [symbolsAll_eq]

theorem IsPart.symbols_cases {n : Nat} {p : Tree} (h : p.IsPart n) :
    (∃ a l, p = .text a l) ∨ ∃ w, p.symbols = .opening :: (w ++ [.closing]) := by
  cases p with
  | text a l => exact .inl ⟨a, l, rfl⟩
  | block first rest l => exact .inr ⟨first.symbols ++ symbolsBarred rest, rfl⟩
  | _ => cases n <;> simp [IsPart] at h

theorem IsPattern.symbols_ne_nil {n : Nat} {t : Tree} (h : t.IsPattern n) : t.symbols ≠ [] := by
  obtain ⟨first, rest, l, rfl⟩ := h.exists_eq
  intro hnil
  obtain ⟨hfirst, -⟩ := List.append_eq_nil_iff.1 hnil
  rcases h.1.symbols_cases with ⟨a, m, rfl⟩ | ⟨w, hw⟩
  · cases hfirst
  · rw [hw] at hfirst
    cases hfirst

theorem IsPattern.symbols_eq {n : Nat} {t : Tree} (h : t.IsPattern n) :
    t.symbols = symbolsAll t.children := by
  obtain ⟨first, rest, l, rfl⟩ := h.exists_eq
  rfl

theorem exists_tokens (xs : List Symbol) : ∃ ts : List Token, ts.map Token.symbol = xs := by
  induction xs with
  | nil => exact ⟨[], rfl⟩
  | cons x xs ih =>
    obtain ⟨t, ht⟩ := Symbol.exists_token x
    obtain ⟨ts, hts⟩ := ih
    exact ⟨t :: ts, by rw [List.map_cons, ht, hts]⟩

/-- The parser finds both trees from the same tokens, and it finds one. -/
theorem same_of_symbols {n : Nat} {t u : Tree} (ht : t.IsPattern n) (hu : u.IsPattern n)
    (h : t.symbols = u.symbols) : t.same u := by
  obtain ⟨ts, hts⟩ := exists_tokens t.symbols
  obtain ⟨t₁, hp₁, ht₁⟩ : ∃ t', (Parser.fresh n none ts).parse.1 = .ok t' ∧ t'.same t :=
    Parser.parse_fresh_of_tree ht hts
  obtain ⟨t₂, hp₂, hu₂⟩ : ∃ t', (Parser.fresh n none ts).parse.1 = .ok t' ∧ t'.same u :=
    Parser.parse_fresh_of_tree hu (hts.trans h)
  rw [hp₁] at hp₂
  cases hp₂
  have hshape : t₁.IsPattern n := (Parser.parse_fresh_ok hp₁).2
  have hv : t₁.Valueless := IsShaped.valueless (.inl hshape)
  exact same_euclidean t₁ hv t u ht₁ hu₂

theorem level_symbolsAll {ts : List Tree} {k : Nat}
    (h : ∀ t ∈ ts, level k (t.symbols.map Symbol.kind) = some k) :
    level k ((symbolsAll ts).map Symbol.kind) = some k := by
  induction ts with
  | nil => rfl
  | cons t ts ih =>
    rw [symbolsAll, List.map_append, level_append, h t (by simp)]
    exact ih fun u hu => h u (by simp [hu])

theorem level_symbolsBarred {ts : List Tree} {k : Nat} (hk : k ≠ 0)
    (h : ∀ t ∈ ts, level k (t.symbols.map Symbol.kind) = some k) :
    level k ((symbolsBarred ts).map Symbol.kind) = some k := by
  induction ts with
  | nil => rfl
  | cons t ts ih =>
    rw [symbolsBarred, List.map_cons, level_cons, Symbol.kind, Token.Kind.level, if_neg hk,
      List.map_append, Option.bind_some, level_append, h t (by simp)]
    exact ih fun u hu => h u (by simp [hu])

theorem level_shape (t : Tree) :
    (∀ n, t.IsPattern n → ∀ k, level k (t.symbols.map Symbol.kind) = some k) ∧
      ∀ n, t.IsPart n → ∀ k, level k (t.symbols.map Symbol.kind) = some k := by
  refine shape_induct (P := fun _ t => ∀ k, level k (t.symbols.map Symbol.kind) = some k)
    (Q := fun _ t => ∀ k, level k (t.symbols.map Symbol.kind) = some k) ?_ ?_ ?_ t
  · intro n content l k
    rfl
  · intro n first rest l h k
    show level k ((symbolsAll (first :: rest)).map Symbol.kind) = some k
    exact level_symbolsAll fun u hu => h u hu k
  · intro n first rest l hf hr k
    have hrest := level_symbolsBarred (Nat.succ_ne_zero k) fun u hu => hr u hu (k + 1)
    rw [symbols, List.map_cons, level_cons, Symbol.kind, Token.Kind.level, Option.bind_some,
      List.map_append, List.map_append, level_append, level_append, hf (k + 1),
      Option.bind_some, hrest]
    rfl

theorem level_symbols {n : Nat} {t : Tree} (h : t.IsShaped n) (k : Nat) :
    level k (t.symbols.map Symbol.kind) = some k := by
  rcases h with h | h
  · exact (level_shape t).1 n h k
  · exact (level_shape t).2 n h k

/-- The lexemes of such a tree close and divide no other blocks. -/
theorem level_lexemes {n : Nat} {t : Tree} (h : t.IsShaped n) {xs : List Lexeme}
    (hx : xs.map Lexeme.symbol = t.symbols) (k : Nat) : level k (xs.map Lexeme.kind) = some k := by
  rw [← map_kind_symbol, hx]
  exact level_symbols h k

end Tree

/-! ## Compiling -/

namespace Template

theorem compile_of_lexed {text : String} {xs : List Lexeme} (h : Lexed 0 text.toList xs [])
    (limit : Nat) (file : Option String) :
    (compile limit file text).value =
      (Parser.fresh limit file (place file {} xs)).report.1.value := by
  have htokens := tokens_of_lexed h file
  rw [if_pos rfl] at htokens
  simp only [compile, htokens, Parser.fresh]

theorem compile_of_cut {limit : Nat} {text : String} {xs : List Lexeme} {t : Tree}
    (hx : Cut 0 xs) (htext : text.toList = xs.flatMap Lexeme.chars) (ht : t.IsPattern limit)
    (hs : xs.map Lexeme.symbol = t.symbols) (file : Option String) :
    ∃ t', (compile limit file text).value = .ok t' ∧ t'.same t ∧ t'.IsPattern limit := by
  have hlexed : Lexed 0 text.toList xs [] := lexed_iff_cut.2 ⟨htext, hx⟩
  have htokens : (place file {} xs).map Token.symbol = t.symbols := by
    rw [map_symbol_place, hs]
  obtain ⟨t', hp, hsame⟩ :
      ∃ t', (Parser.fresh limit file (place file {} xs)).parse.1 = .ok t' ∧ t'.same t :=
    Parser.parse_fresh_of_tree ht htokens
  refine ⟨t', ?_, hsame, (Parser.parse_fresh_ok hp).2⟩
  rw [compile_of_lexed hlexed]
  exact Parser.report_of_ok hp

/-- What is known of a text that compiles. -/
structure Spelled (limit : Nat) (file : Option String) (text : String) (t : Tree)
    (xs : List Lexeme) : Prop where
  cut : Cut 0 xs
  text_eq : text.toList = xs.flatMap Lexeme.chars
  parse_eq : (Parser.fresh limit file (place file {} xs)).parse.1 = .ok t
  symbols_eq : xs.map Lexeme.symbol = t.symbols
  isPattern : t.IsPattern limit

theorem exists_cut_of_compile {limit : Nat} {file : Option String} {text : String} {t : Tree}
    (h : (compile limit file text).value = .ok t) : ∃ xs, Spelled limit file text t xs := by
  obtain ⟨xs, tail, hxs⟩ := exists_lexed 0 text.toList
  by_cases htail : tail = []
  · subst htail
    obtain ⟨htext, hcut⟩ := lexed_iff_cut.1 hxs
    rw [compile_of_lexed hxs] at h
    cases hp : (Parser.fresh limit file (place file {} xs)).parse.1 with
    | error f =>
      rw [Parser.report_of_error hp] at h
      cases h
    | ok t' =>
      rw [Parser.report_of_ok hp] at h
      cases h
      obtain ⟨hs, hpattern⟩ := Parser.parse_fresh_ok hp
      rw [map_symbol_place] at hs
      exact ⟨xs, hcut, htext, hp, hs.symm, hpattern⟩
  · have htokens := tokens_of_lexed hxs file
    rw [if_neg htail] at htokens
    simp only [compile, htokens] at h
    cases h

end Template
end Spintax
