import Spintax.Proofs.Coverage
import Spintax.Proofs.Spelling
import Spintax.Proofs.Tiling

/-!
# Spintax.Proofs.Slices

The text behind every tree of a template is a template for that tree. A part of a block was read
with more blocks open, where a bar ends a run; on its own it is cut in the same places, since all
bars in it belong to blocks of its own.

* `Tree.asPattern`: a tree as a template of its own.
* `compile_slice`: every location of a template that compiles is a template for what stands there.
-/

namespace Spintax

/-! ## Trees and their text -/

/-- What closes and divides no blocks but its own is cut in the same way outside all blocks. -/
theorem Cut.middle {before ys after : List Lexeme} (h : Cut 0 (before ++ ys ++ after))
    (hlevel : level 0 (ys.map Lexeme.kind) = some 0) : Cut 0 ys := by
  obtain ⟨hcut, -, -⟩ := cut_append.1 h
  obtain ⟨-, hys, -⟩ := cut_append.1 hcut
  exact ⟨fitting_inside hlevel hys.fits, hys.apart⟩

namespace Tree

/-- The tree as a template of its own. -/
def asPattern : Tree → Tree
  | .pattern first rest l => .pattern first rest l
  | t => .pattern t [] .unknown

theorem IsShaped.asPattern {n : Nat} {t : Tree} (h : t.IsShaped n) :
    t.asPattern.IsPattern n ∧ t.asPattern.symbols = t.symbols := by
  cases t with
  | pattern first rest l =>
    rcases h with h | h
    · exact ⟨h, rfl⟩
    · cases n <;> simp [IsPart] at h
  | text a l => simp [Tree.asPattern, IsPattern, IsPart, AreParts, symbols, symbolsAll]
  | block first rest l =>
    rcases h with h | h
    · simp [IsPattern] at h
    · exact ⟨⟨h, trivial⟩, by simp [Tree.asPattern, symbols, symbolsAll]⟩
  | bare l => rcases h with h | h <;> cases n <;> simp [IsPattern, IsPart] at h
  | value v => rcases h with h | h <;> cases n <;> simp [IsPattern, IsPart] at h

end Tree

namespace Template

/-- Every tree of a template covers lexemes in a row, and the text of those is a template for it. -/
theorem compile_slice {limit : Nat} {file : Option String} {text : String} {t : Tree}
    (h : (compile limit file text).value = .ok t) :
    ∀ u : Tree, u.Within t → ∃ a b : Nat, u.location.start = a ∧ u.location.stop = b ∧ a < b ∧
      b ≤ text.length ∧
      ∃ t', (compile limit file (String.ofList (slice text.toList a b))).value = .ok t' ∧
        t'.same u.asPattern := by
  intro u hu
  obtain ⟨xs, hx⟩ := exists_cut_of_compile h
  have hcovers : Tree.Covers (place file {} xs) t :=
    Parser.parse_covers hx.parse_eq fun _ => stop_ne_zero_of_place
  obtain ⟨vs, hvs, hspans⟩ := hcovers.inner u hu
  obtain ⟨before, ys, after, rfl, rfl⟩ := exists_of_infix_place hvs
  obtain ⟨first, last, hfirst, hlast, hstop, hlocation⟩ := hspans.ends
  have hsymbols : ys.map Lexeme.symbol = u.symbols := by
    rw [← hspans.symbols_eq, map_symbol_place]
  have hshape : u.IsShaped limit := Tree.IsShaped.within hu (.inl hx.isPattern)
  have hlevel : level 0 (ys.map Lexeme.kind) = some 0 := Tree.level_lexemes hshape hsymbols 0
  obtain ⟨hpattern, hasPattern⟩ := hshape.asPattern
  let a := (before.flatMap Lexeme.chars).length
  let b := a + (ys.flatMap Lexeme.chars).length
  have htext : text.toList = before.flatMap Lexeme.chars ++ ys.flatMap Lexeme.chars ++
      after.flatMap Lexeme.chars := by
    rw [hx.text_eq, List.flatMap_append, List.flatMap_append]
  have hslice : (String.ofList (slice text.toList a b)).toList = ys.flatMap Lexeme.chars := by
    rw [String.toList_ofList, htext, slice_middle]
  refine ⟨a, b, ?_, ?_, ?_, ?_, ?_⟩
  · rw [hlocation, Location.spanTo_start, start_of_head? hfirst, Mark.past_offset, Nat.zero_add]
  · rw [hlocation, Location.spanTo_stop hstop, stop_of_getLast? hlast, Mark.past_offset,
      Mark.past_offset, Nat.zero_add]
  · cases ys with
    | nil => cases hfirst
    | cons y ys =>
      have := List.length_pos_iff.2 y.chars_ne_nil
      simp only [a, b, List.flatMap_cons, List.length_append]
      omega
  · rw [← String.length_toList, htext]
    simp only [a, b, List.length_append]
    omega
  · obtain ⟨t', ht', hsame, -⟩ :=
      compile_of_cut (hx.cut.middle hlevel) hslice hpattern (hsymbols.trans hasPattern.symm) file
    exact ⟨t', ht', hsame⟩

/-- An option with an escaped bar, which is no longer inside a block when it stands alone. -/
theorem compile_slice_option :
    let text := "q|\x7ba\\|b|c\x7d"
    ∃ t u, (compile 1 none text).value = .ok t ∧ u.Within t ∧ u.location.start = 3 ∧
      u.location.stop = 7 ∧
      ∃ t', (compile 1 none "a\\|b").value = .ok t' ∧ t'.same u := by
  intro text
  have hlexed : Lexed 0 text.toList
      [.run 'q' ['|'], .opening, .run 'a' [], .escape '|', .run 'b' [], .bar, .run 'c' [],
        .closing] [] :=
    lexed_iff_cut.2 ⟨by decide, by decide⟩
  obtain ⟨part, first, rest, options, l, m, n, h, hstart, hstop⟩ :
      ∃ part first rest options l m n,
        (compile 1 none text).value =
          .ok (.pattern part [.block (.pattern first rest l) options m] n) ∧
        l.start = 3 ∧ l.stop = 7 :=
    ⟨_, _, _, _, _, _, _, (compile_of_lexed hlexed 1 none).trans rfl, rfl, rfl⟩
  have hu : (Tree.pattern first rest l).Within
      (.pattern part [.block (.pattern first rest l) options m] n) :=
    .child (c := .block (.pattern first rest l) options m) (by simp [Tree.children])
      (.child (by simp [Tree.children]) .self)
  obtain ⟨a, b, ha, hb, -, -, t', ht', hsame⟩ := compile_slice h _ hu
  have ha' : a = 3 := Int.ofNat_inj.1 (ha.symm.trans hstart)
  have hb' : b = 7 := Int.ofNat_inj.1 (hb.symm.trans hstop)
  have hslice : String.ofList (slice text.toList a b) = "a\\|b" := by
    rw [ha', hb']
    decide
  rw [hslice] at ht'
  exact ⟨_, _, h, hu, hstart, hstop, t', ht', hsame⟩

end Template
end Spintax
