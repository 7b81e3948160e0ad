import Spintax.Proofs.DescentFrames
import Spintax.Proofs.ParserComplete

/-!
# Spintax.Proofs.ParserCorrect

A new parser accepts exactly the words of the grammar, and the tree it gives is the derivation: it
is written with the symbols of the tokens. A tree of the shape of the grammar is found again, up
to places, from any tokens it is written with. All other tokens are refused with a fault, which is
also all that can end the recursive productions.
-/

namespace Spintax
namespace Parser

open Spintax.Tree

variable {limit : Nat} {file : Option String} {tokens : List Token}

/-- A parser that has read nothing. -/
def fresh (limit : Nat) (file : Option String) (tokens : List Token) : Parser :=
  { tokens := tokens, file := file, limit := limit }

theorem parse_fresh :
    (fresh limit file tokens).parse.1 =
      match (State.start 0 0).run limit tokens with
      | .ok s => s.finish
      | .error h => .error h.fault := by
  simp only [parse, fresh, List.drop_zero]
  split <;> simp [*]

/-- Soundness: what is accepted has the shape of the grammar, and is written with the tokens. -/
theorem parse_fresh_ok {t : Tree} (h : (fresh limit file tokens).parse.1 = .ok t) :
    t.symbols = tokens.map Token.symbol ∧ t.IsPattern limit := by
  rw [parse_fresh] at h
  cases hr : (State.start 0 0).run limit tokens with
  | error e =>
    rw [hr] at h
    cases h
  | ok s =>
    rw [hr] at h
    obtain ⟨n, hf⟩ := State.run_fits hr (State.start_fits limit)
    obtain ⟨hs, hp⟩ := State.finish_ok h hf
    rw [State.run_word hr] at hs
    exact ⟨by simpa using hs, hp⟩

/-- Completeness: a tree of the shape of the grammar is found again. -/
theorem parse_fresh_of_tree {t : Tree} (ht : t.IsPattern limit)
    (hs : tokens.map Token.symbol = t.symbols) :
    ∃ t', (fresh limit file tokens).parse.1 = .ok t' ∧ t'.same t := by
  obtain ⟨newest, older, hsame, hrun⟩ :=
    (State.reads_tree t).1 limit ht tokens (State.start 0 0) hs (Nat.zero_add _) rfl
  refine ⟨patternOf newest older, ?_, hsame⟩
  rw [parse_fresh, hrun]
  rfl

theorem exists_parse_iff :
    (∃ t, (fresh limit file tokens).parse.1 = .ok t) ↔
      Grammar.Pattern limit (tokens.map Token.kind) := by
  have hk : tokens.map Token.kind = (tokens.map Token.symbol).map Symbol.kind := by simp
  rw [hk, Grammar.pattern_iff_tree]
  constructor
  · rintro ⟨t, h⟩
    obtain ⟨hs, hp⟩ := parse_fresh_ok h
    exact ⟨t, hp, hs⟩
  · rintro ⟨t, hp, hs⟩
    have h : ∃ t', (fresh limit file tokens).parse.1 = .ok t' ∧ t'.same t :=
      parse_fresh_of_tree hp hs.symm
    obtain ⟨t', h, -⟩ := h
    exact ⟨t', h⟩

theorem diagnostic_kind (p : Parser) (f : Fault) : (p.diagnostic f).kind = .structural := by
  unfold diagnostic
  split <;> rfl

theorem report_of_error {p : Parser} {f : Fault} (h : p.parse.1 = .error f) :
    p.report.1.value = .error (p.diagnostic f) := by
  unfold report
  split
  · rename_i t p' hp
    rw [hp] at h
    cases h
  · rename_i f' p' hp
    rw [hp] at h
    cases h
    rfl

theorem report_of_ok {p : Parser} {t : Tree} (h : p.parse.1 = .ok t) :
    p.report.1.value = .ok t := by
  unfold report
  split
  · rename_i t' p' hp
    rw [hp] at h
    cases h
    rfl
  · rename_i f' p' hp
    rw [hp] at h
    cases h

/-- The parser and its grammar. Accepted are the words of the grammar; the tree is written with
the tokens; every tree of the shape of the grammar is found again; and what is not accepted is a
fault of structure, in the recursive productions too. -/
theorem parse_accepts_grammar (limit : Nat) (file : Option String) (tokens : List Token) :
    ((∃ t, (fresh limit file tokens).parse.1 = .ok t) ↔
      Grammar.Pattern limit (tokens.map Token.kind)) ∧
    (∀ t, (fresh limit file tokens).parse.1 = .ok t →
      t.symbols = tokens.map Token.symbol ∧ t.IsPattern limit) ∧
    (∀ t : Tree, t.IsPattern limit → tokens.map Token.symbol = t.symbols →
      ∃ t', (fresh limit file tokens).parse.1 = .ok t' ∧ t'.same t) ∧
    (Descent.parse limit none (.ofParser (fresh limit file tokens) (Nat.zero_le _))).1 =
      (fresh limit file tokens).parse.1.mapError .fault ∧
    (¬ Grammar.Pattern limit (tokens.map Token.kind) →
      ∃ f,
        (Descent.parse limit none (.ofParser (fresh limit file tokens) (Nat.zero_le _))).1 =
          .error (.fault f) ∧
        (fresh limit file tokens).report.1.value =
          .error ((fresh limit file tokens).diagnostic f) ∧
        ((fresh limit file tokens).diagnostic f).kind = .structural) := by
  have hd := (Descent.descent_parse (fresh limit file tokens) (Nat.zero_le _)).1
  refine ⟨exists_parse_iff, fun t h => parse_fresh_ok h, fun t ht hs => parse_fresh_of_tree ht hs,
    hd, ?_⟩
  intro hn
  cases h : (fresh limit file tokens).parse.1 with
  | ok t => exact absurd (exists_parse_iff.1 ⟨t, h⟩) hn
  | error f =>
    refine ⟨f, ?_, report_of_error h, diagnostic_kind _ f⟩
    rw [h] at hd
    exact hd

/-- A block of two options with one block in the second, and the same without its last brace. -/
theorem parse_accepts_grammar_block :
    let token (kind : Token.Kind) (value : String) : Token := ⟨kind, value, 1, 1, 0, 0, none⟩
    let tokens := [token .opening "\x7b", token .text "a", token .bar "|", token .opening "?",
      token .text "b", token .closing "\x7d", token .text "c", token .closing ""]
    let tree : Tree := .pattern (.block
      (.pattern (.text "a" .unknown) [] .unknown)
      [.pattern (.block (.pattern (.text "b" .unknown) [] .unknown) [] .unknown)
        [.text "c" .unknown] .unknown] .unknown) [] .unknown
    (∃ t, (fresh 2 none tokens).parse.1 = .ok t ∧ t.same tree ∧
      t.symbols = tokens.map Token.symbol) ∧
    ∃ f, (fresh 2 none tokens.dropLast).report.1.value =
      .error ((fresh 2 none tokens.dropLast).diagnostic f) := by
  intro token tokens tree
  have htree : tree.IsPattern 2 := by
    simp [tree, IsPattern, IsPart, AreParts, ArePatterns]
  obtain ⟨-, hok, hof, -, -⟩ := parse_accepts_grammar 2 none tokens
  obtain ⟨t, ht, hs⟩ := hof tree htree rfl
  obtain ⟨hacc, -, -, -, herr⟩ := parse_accepts_grammar 2 none tokens.dropLast
  have hn : ¬ Grammar.Pattern 2 (tokens.dropLast.map Token.kind) := by
    rw [← hacc]
    rintro ⟨t, ht⟩
    cases ht
  obtain ⟨f, -, hf, -⟩ := herr hn
  exact ⟨⟨t, ht, hs, (hok t ht).1⟩, f, hf⟩

end Parser
end Spintax
