import Mathlib.Data.List.Basic
import Spintax.Proofs.Tiling

/-!
# Spintax.Proofs.Rebuilding

A text is rebuilt from its tokens. The value of a token alone does not tell what it was read from: a
newline may have been written as one or as an escape. With the length of its span it does.

* `Escape.letter`: what is written behind a backslash for a single character.
* `Token.spelling`: what a token was read from, by its value and its span.
* `Token.rebuild`: the text of some tokens.
* `Spells.spelled_eq`: there is no other piece of text that is this token.
* `tokens_lossless`: texts with the same tokens are the same, and rebuilt from them.
-/

namespace Spintax

namespace Escape

/-- The character that means `x` behind a backslash. -/
def letter (x : Char) : Char :=
  match controls.find? (·.2 = x) with
  | some (c, _) => c
  | none => x

/-- No two escapes mean the same character. -/
theorem letter_of_resolve {c x : Char} (h : resolve c = [x]) : letter x = c := by
  by_cases hc : c ∈ literals
  · rw [resolve_of_mem hc] at h
    obtain rfl := List.singleton_inj.1 h
    simp only [literals, List.mem_cons, List.not_mem_nil, or_false] at hc
    rcases hc with rfl | rfl | rfl | rfl
    all_goals rfl
  · cases hl : controls.lookup c with
    | none => simp [resolve, hc, hl] at h
    | some control =>
      have hx : control = x := by simpa [resolve, hc, hl] using h
      obtain ⟨before, after, heq, -⟩ := List.lookup_eq_some_iff.1 hl
      have hmem : (c, control) ∈ controls := by simp [heq]
      simp only [controls, List.mem_cons, List.not_mem_nil, or_false, Prod.mk.injEq] at hmem
      subst hx
      rcases hmem with ⟨rfl, rfl⟩ | ⟨rfl, rfl⟩ | ⟨rfl, rfl⟩
      all_goals rfl

/-- An escape means one character, or it is kept as it is written. -/
theorem resolve_cases (c : Char) : (∃ x, resolve c = [x]) ∨ resolve c = [sign, c] := by
  by_cases hc : c ∈ literals
  · exact .inl ⟨c, resolve_of_mem hc⟩
  · cases hl : controls.lookup c with
    | none => exact .inr (by simp [resolve, hc, hl])
    | some control => exact .inl ⟨control, by simp [resolve, hc, hl]⟩

end Escape

namespace Token

/-- The `n` characters that have this value. Where there are more of them than of the value, they
are an escape. -/
def spelled (value : List Char) (n : Nat) : List Char :=
  if value.length = n then value else Escape.sign :: value.map Escape.letter

def width (t : Token) : Nat :=
  (t.location.stop - t.location.start).toNat

/-- What a token was read from, by its value and its span. -/
def spelling (t : Token) : List Char :=
  spelled t.value.toList t.width

def rebuild (ts : List Token) : String :=
  String.ofList (ts.flatMap spelling)

end Token

theorem Spells.spelled_eq {d : Nat} {piece value : List Char} {next : Option Char}
    {kind : Token.Kind} (h : Spells d piece next kind value) :
    Token.spelled value piece.length = piece := by
  cases h with
  | opening => rfl
  | closing => rfl
  | bar _ => rfl
  | @escape c _ =>
    -- one character for two, or two that are kept: the lengths tell these cases apart
    rcases Escape.resolve_cases c with ⟨x, hx⟩ | hkept
    · rw [hx, Token.spelled, if_neg (by simp), List.map_singleton, Escape.letter_of_resolve hx]
      rfl
    · rw [hkept]
      rfl
  | run _ _ _ => exact if_pos rfl

section

variable {cs : List Char} {d a : Nat} {ts : List Token}

theorem TilesFrom.length_piece (h : TilesFrom cs d a ts) {t : Token} (ht : t ∈ ts) :
    (t.piece cs).length = t.width := by
  obtain ⟨before, after, rfl⟩ := List.append_of_mem ht
  obtain ⟨b, hb⟩ := h.suffix
  obtain ⟨e, hstart, hstop, hlt, -, hrest⟩ := tilesFrom_cons_iff.1 hb
  have hle : e ≤ cs.length := Int.ofNat_le.1 hrest.abut.le
  rw [Token.piece, Token.width, slice, hstart, hstop, List.length_drop, List.length_take]
  omega

/-- The value and the span of a token tell what stands where it was read. -/
theorem TilesFrom.spelling_eq (h : TilesFrom cs d a ts) {t : Token} (ht : t ∈ ts) :
    t.spelling = t.piece cs := by
  have hlength := h.length_piece ht
  obtain ⟨before, after, rfl⟩ := List.append_of_mem ht
  rw [Token.spelling, ← hlength]
  exact (h.spells before t after rfl).spelled_eq

end

theorem Template.tiling_of_tokens {file : Option String} {text : String} {ts : List Token}
    (h : (tokens file text).value = .ok ts) : Tiling text.toList ts := by
  obtain ⟨xs, tail, hxs⟩ := exists_lexed 0 text.toList
  rw [tokens_of_lexed hxs] at h
  by_cases htail : tail = []
  · rw [if_pos htail] at h
    obtain rfl := Except.ok.inj h
    exact tilesFrom_place hxs htail file text.toList 0 {} rfl (Nat.zero_le _) rfl
  · rw [if_neg htail] at h
    cases h

theorem Tiling.rebuild_eq {text : String} {ts : List Token} (h : Tiling text.toList ts) :
    Token.rebuild ts = text := by
  have hpieces : ts.flatMap Token.spelling = ts.flatMap (Token.piece text.toList) :=
    List.flatMap_congr fun t ht => h.spelling_eq ht
  rw [Token.rebuild, hpieces, h.flatMap_piece, List.drop_zero, String.ofList_toList]

/-- Two texts with the same tokens are the same text, and it is rebuilt from the tokens. Wherever
two tokens have the same value and spans of the same length, the same characters were read: an
escape is never taken for a run. -/
theorem tokens_lossless {file : Option String} {text text' : String} {ts ts' : List Token}
    (h : (Template.tokens file text).value = .ok ts)
    (h' : (Template.tokens file text').value = .ok ts') :
    (ts = ts' → text = text') ∧ Token.rebuild ts = text ∧
      ∀ t ∈ ts, ∀ t' ∈ ts', t.value = t'.value → t.width = t'.width →
        t.piece text.toList = t'.piece text'.toList := by
  have htiling := Template.tiling_of_tokens h
  have htiling' := Template.tiling_of_tokens h'
  refine ⟨?_, htiling.rebuild_eq, ?_⟩
  · rintro rfl
    exact htiling.rebuild_eq.symm.trans htiling'.rebuild_eq
  · intro t ht t' ht' hvalue hwidth
    rw [← htiling.spelling_eq ht, ← htiling'.spelling_eq ht', Token.spelling, Token.spelling,
      hvalue, hwidth]

/-- A newline that is escaped and one that is not, each before an escape that is kept as written.
The values are the same, and the texts are not. -/
theorem tokens_lossless_newline :
    ∃ ts ts', (Template.tokens none "\\n\\x").value = .ok ts ∧
      (Template.tokens none "\n\\x").value = .ok ts' ∧
      ts.map Token.value = ts'.map Token.value ∧ ts ≠ ts' ∧
      Token.rebuild ts = "\\n\\x" ∧ Token.rebuild ts' = "\n\\x" := by
  have hescaped : Lexed 0 "\\n\\x".toList [.escape 'n', .escape 'x'] [] :=
    .cons .escape (.cons .escape .nil)
  have hplain : Lexed 0 "\n\\x".toList [.run '\n' [], .escape 'x'] [] := by
    have hcs : "\n\\x".toList = ['\n', '\\', 'x'] := by decide
    rw [hcs]
    refine .cons (.run ?_ ?_ rfl) (.cons .escape .nil)
    all_goals simp [Stops]
  have h := Template.tokens_of_lexed hescaped none
  have h' := Template.tokens_of_lexed hplain none
  rw [if_pos rfl] at h h'
  obtain ⟨hsame, hrebuild, -⟩ := tokens_lossless h h'
  obtain ⟨-, hrebuild', -⟩ := tokens_lossless h' h
  exact ⟨_, _, h, h', by decide, fun heq => absurd (hsame heq) (by decide), hrebuild, hrebuild'⟩

end Spintax
