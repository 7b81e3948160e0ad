import Spintax.Proofs.ScannerLexemes

/-!
# Spintax.Proofs.Tiling

The tokens of a text as the one way to tile it. The spans of a tiling lie behind one another and
cover the text, and what stands in a span, the character behind it and the number of blocks open
before it decide what token it is.

* `Token.piece`: the characters in the span of a token.
* `balance`: the number of open blocks, counted over the tokens before.
* `Spells`: what token a piece of text is.
* `TilesFrom`, `Tiling`: all of this for a list of tokens, from an offset or from the start.
* `tokens_tile`: the tokens of a text are its tiling, and there is no other.
-/

namespace Spintax

/-- The characters from one offset up to another. -/
def slice (cs : List Char) (a b : Nat) : List Char :=
  (cs.take b).drop a

namespace Token

def piece (cs : List Char) (t : Token) : List Char :=
  slice cs t.location.start.toNat t.location.stop.toNat

def depth (d : Nat) (t : Token) : Nat :=
  match t.kind with
  | .opening => d + 1
  | .closing => d - 1
  | _ => d

/-- All of a token but its line, its column and its file. -/
def reading (t : Token) : Kind × String × Int × Int :=
  (t.kind, t.value, t.location.start, t.location.stop)

/-- A text that holds no backslash where it stands. -/
def IsRun (cs : List Char) (t : Token) : Prop :=
  t.kind = .text ∧ '\\' ∉ t.piece cs

end Token

/-- The number of open blocks after some tokens. -/
def balance (d : Nat) (ts : List Token) : Nat :=
  ts.foldl Token.depth d

/-- What token a piece of text is, with `d` blocks open before it and `next` behind it. -/
inductive Spells (d : Nat) : (piece : List Char) → (next : Option Char) → Token.Kind →
    (value : List Char) → Prop where
  | opening {next : Option Char} : Spells d ['{'] next .opening ['{']
  | closing {next : Option Char} : Spells d ['}'] next .closing ['}']
  | bar {next : Option Char} (h : 0 < d) : Spells d ['|'] next .bar ['|']
  | escape {c : Char} {next : Option Char} : Spells d ['\\', c] next .text (Escape.resolve c)
  | run {cs : List Char} {next : Option Char} (hne : cs ≠ []) (h : ∀ c ∈ cs, ¬ Stops d c)
      (hmax : ∀ c, next = some c → Stops d c) : Spells d cs next .text cs

/-- Spans from `a` to `b`, none of them empty, each starting where the one before it ends. -/
def Abut : Int → List Token → Int → Prop
  | a, [], b => a = b
  | a, t :: ts, b => t.location.start = a ∧ a < t.location.stop ∧ Abut t.location.stop ts b

/-- The tokens tile the text behind the offset `a`, where `d` blocks are open. -/
structure TilesFrom (cs : List Char) (d a : Nat) (ts : List Token) : Prop where
  abut : Abut a ts cs.length
  spells : ∀ (before : List Token) (t : Token) (after : List Token), ts = before ++ t :: after →
    Spells (balance d before) (t.piece cs) cs[t.location.stop.toNat]? t.kind t.value.toList

def Tiling (cs : List Char) (ts : List Token) : Prop :=
  TilesFrom cs 0 0 ts

@[simp] theorem Token.depth_token (file : Option String) (m : Mark) (x : Lexeme) (d : Nat) :
    (x.token file m).depth d = x.depth d := by
  cases x <;> rfl

theorem balance_place (file : Option String) (m : Mark) (xs : List Lexeme) (d : Nat) :
    balance d (place file m xs) = depthAfter d xs := by
  induction xs generalizing m d with
  | nil => rfl
  | cons x xs ih =>
    rw [place, balance, List.foldl_cons, Token.depth_token, depthAfter_cons]
    exact ih _ _

/-! ## Pieces and lexemes -/

section Pieces

variable {cs : List Char} {a b d : Nat}

theorem slice_middle (before middle after : List Char) :
    slice (before ++ middle ++ after) before.length (before.length + middle.length) = middle := by
  rw [slice, ← List.length_append, List.take_left, List.drop_left]

theorem slice_append_drop (h : a ≤ b) : slice cs a b ++ cs.drop b = cs.drop a := by
  have hd : cs.drop b = (cs.drop a).drop (b - a) := by
    rw [List.drop_drop]
    congr 1
    omega
  rw [slice, List.drop_take, hd, List.take_append_drop]

theorem spells_of_reads {x : Lexeme} {text rest : List Char} (h : Reads d text x rest) :
    Spells d x.chars rest.head? x.kind x.value := by
  cases h with
  | opening => exact .opening
  | closing => exact .closing
  | bar hd => exact .bar hd
  | escape => exact .escape
  | run h hmax _ => exact .run (by simp [Lexeme.chars]) h hmax

theorem reads_of_spells {piece rest value : List Char} {kind : Token.Kind}
    (h : Spells d piece rest.head? kind value) :
    ∃ x, Reads d (piece ++ rest) x rest ∧ x.chars = piece ∧ x.kind = kind ∧ x.value = value := by
  generalize hn : rest.head? = next at h
  cases h with
  | opening => exact ⟨.opening, .opening, rfl, rfl, rfl⟩
  | closing => exact ⟨.closing, .closing, rfl, rfl, rfl⟩
  | bar hd => exact ⟨.bar, .bar hd, rfl, rfl, rfl⟩
  | escape => exact ⟨.escape _, .escape, rfl, rfl, rfl⟩
  | run hne h hmax =>
    cases piece with
    | nil => exact absurd rfl hne
    | cons c cs => exact ⟨.run c cs, .run h (by rw [hn]; exact hmax) rfl, rfl, rfl, rfl⟩

end Pieces

/-! ## Tilings and lexemes -/

theorem Abut.le {a b : Int} {ts : List Token} (h : Abut a ts b) : a ≤ b := by
  induction ts generalizing a with
  | nil => exact Int.le_of_eq h
  | cons t ts ih =>
    have := ih h.2.2
    have := h.2.1
    omega

theorem tilesFrom_cons_iff {cs : List Char} {d a : Nat} {t : Token} {ts : List Token} :
    TilesFrom cs d a (t :: ts) ↔
      ∃ b : Nat, t.location.start = a ∧ t.location.stop = b ∧ a < b ∧
        Spells d (slice cs a b) cs[b]? t.kind t.value.toList ∧ TilesFrom cs (t.depth d) b ts := by
  constructor
  · rintro ⟨⟨hstart, hlt, habut⟩, hspells⟩
    obtain ⟨b, hb⟩ : ∃ b : Nat, t.location.stop = b := Int.eq_ofNat_of_zero_le (by omega)
    refine ⟨b, hstart, hb, by omega, ?_, by rwa [hb] at habut, ?_⟩
    · have h := hspells [] t ts rfl
      rwa [Token.piece, hstart, hb] at h
    · intro before u after h
      exact hspells (t :: before) u after (by rw [h]; rfl)
  · rintro ⟨b, hstart, hstop, hlt, hspells, habut, hrest⟩
    refine ⟨⟨hstart, by omega, by rwa [hstop]⟩, ?_⟩
    intro before u after h
    cases before with
    | nil =>
      obtain ⟨rfl, -⟩ := List.cons.inj h
      rw [Token.piece, hstart, hstop]
      exact hspells
    | cons v before =>
      obtain ⟨rfl, hts⟩ := List.cons.inj h
      exact hrest before u after hts

theorem getElem?_eq_head?_drop (cs : List Char) (b : Nat) : cs[b]? = (cs.drop b).head? := by
  rw [List.head?_drop]

/-- Where the tokens tile the text, it is cut into lexemes that they are read from. -/
theorem TilesFrom.lexed {cs : List Char} {d a : Nat} {ts : List Token}
    (h : TilesFrom cs d a ts) (file : Option String) (m : Mark) (hm : m.offset = a) :
    ∃ xs, Lexed d (cs.drop a) xs [] ∧
      ts.map Token.reading = (place file m xs).map Token.reading := by
  induction ts generalizing d a m with
  | nil =>
    have ha : a = cs.length := Int.ofNat_inj.1 h.abut
    rw [ha, List.drop_length]
    exact ⟨[], .nil, rfl⟩
  | cons t ts ih =>
    obtain ⟨b, hstart, hstop, hlt, hspells, hrest⟩ := tilesFrom_cons_iff.1 h
    rw [getElem?_eq_head?_drop] at hspells
    obtain ⟨x, hx, hchars, hkind, hvalue⟩ := reads_of_spells hspells
    rw [slice_append_drop (Nat.le_of_lt hlt)] at hx
    have hdepth : t.depth d = x.depth d := by
      rw [Token.depth, ← hkind]
      cases x <;> rfl
    have hle : b ≤ cs.length := Int.ofNat_le.1 hrest.abut.le
    have hb : (m.past x.chars).offset = b := by
      rw [Mark.past_offset, hm, hchars, slice, List.length_drop, List.length_take]
      omega
    rw [hdepth] at hrest
    obtain ⟨xs, hxs, hts⟩ := ih hrest (m.past x.chars) hb
    refine ⟨x :: xs, .cons hx hxs, ?_⟩
    have ht : t.reading = (x.token file m).reading := by
      simp only [Token.reading, Lexeme.token, hstart, hstop, hkind, hm, hb, hvalue,
        String.ofList_toList]
    rw [List.map_cons, ht, hts]
    rfl

/-- The lexemes of a text, each at its place, tile it. -/
theorem tilesFrom_place {text : List Char} {d : Nat} {xs : List Lexeme} {tail : List Char}
    (h : Lexed d text xs tail) (htail : tail = []) (file : Option String) :
    ∀ (cs : List Char) (a : Nat) (m : Mark), cs.drop a = text → a ≤ cs.length → m.offset = a →
      TilesFrom cs d a (place file m xs) := by
  induction h with
  | nil =>
    intro cs a m hcs ha hm
    have : cs.length = a := by
      rw [List.drop_eq_nil_iff] at hcs
      omega
    exact ⟨by simp [place, Abut, this], by simp [place]⟩
  | lone => cases htail
  | @cons d text rest tail x xs hx _ ih =>
    intro cs a m hcs ha hm
    have htext := hx.chars_append
    let b := a + x.chars.length
    have hlt : a < b := by
      have := List.length_pos_iff.2 x.chars_ne_nil
      omega
    have hdrop : cs.drop b = rest := by
      rw [← List.drop_drop, hcs, htext, List.drop_left]
    have hslice : slice cs a b = x.chars := by
      rw [slice, List.drop_take, hcs, htext, Nat.add_sub_cancel_left, List.take_left]
    have hle : b ≤ cs.length := by
      have hlen := congrArg List.length (hcs.trans htext)
      rw [List.length_drop, List.length_append] at hlen
      omega
    have hb : (m.past x.chars).offset = b := by rw [Mark.past_offset, hm]
    have hspells := spells_of_reads hx
    rw [← hdrop, ← getElem?_eq_head?_drop] at hspells
    refine tilesFrom_cons_iff.2 ⟨b, ?_, ?_, hlt, ?_, ?_⟩
    · simp only [Lexeme.token, hm]
    · simp only [Lexeme.token, hb]
    · simpa only [hslice, Lexeme.token, String.toList_ofList] using hspells
    · rw [Token.depth_token]
      exact ih htail cs b (m.past x.chars) hdrop hle hb

/-! ## What a tiling is like -/

theorem Spells.value_ne_nil {d : Nat} {piece value : List Char} {next : Option Char}
    {kind : Token.Kind} (h : Spells d piece next kind value) : value ≠ [] := by
  cases h with
  | escape => exact Escape.resolve_ne_nil _
  | run hne _ _ => exact hne
  | opening => simp
  | closing => simp
  | bar _ => simp

/-- A text without a backslash where it stands is a run: it stops before the next character. -/
theorem Spells.stops_next {d : Nat} {piece value : List Char} {next : Option Char}
    (h : Spells d piece next .text value) (hb : '\\' ∉ piece) :
    (∀ c ∈ piece, ¬ Stops d c) ∧ ∀ c, next = some c → Stops d c := by
  cases h with
  | escape => exact absurd (List.mem_cons_self) hb
  | run _ h hmax => exact ⟨h, hmax⟩

namespace TilesFrom

variable {cs : List Char} {d a : Nat} {ts : List Token}

theorem value_ne_empty (h : TilesFrom cs d a ts) {t : Token} (ht : t ∈ ts) : t.value ≠ "" := by
  obtain ⟨before, after, rfl⟩ := List.append_of_mem ht
  intro hv
  have := (h.spells before t after rfl).value_ne_nil
  rw [hv] at this
  exact this rfl

/-- Nothing is lost, and nothing is read twice. -/
theorem flatMap_piece (h : TilesFrom cs d a ts) : ts.flatMap (Token.piece cs) = cs.drop a := by
  induction ts generalizing d a with
  | nil =>
    have ha : a = cs.length := Int.ofNat_inj.1 h.abut
    rw [ha, List.drop_length]
    rfl
  | cons t ts ih =>
    obtain ⟨b, hstart, hstop, hlt, -, hrest⟩ := tilesFrom_cons_iff.1 h
    rw [List.flatMap_cons, ih hrest, Token.piece, hstart, hstop]
    exact slice_append_drop (Nat.le_of_lt hlt)

theorem suffix {before after : List Token} (h : TilesFrom cs d a (before ++ after)) :
    ∃ b, TilesFrom cs (balance d before) b after := by
  induction before generalizing d a with
  | nil => exact ⟨a, h⟩
  | cons t before ih =>
    obtain ⟨b, -, -, -, -, hrest⟩ := tilesFrom_cons_iff.1 h
    exact ih hrest

/-- Of two texts next to each other, one is an escape: a run goes on to the next character that
ends it. -/
theorem not_adjacent_runs {before after : List Token} {t u : Token}
    (h : TilesFrom cs d a (before ++ t :: u :: after)) : ¬ (t.IsRun cs ∧ u.IsRun cs) := by
  rintro ⟨⟨htk, htb⟩, huk, hub⟩
  obtain ⟨b, hb⟩ := h.suffix
  obtain ⟨e, hts, hte, -, hspells, hrest⟩ := tilesFrom_cons_iff.1 hb
  obtain ⟨f, hus, huf, hlt, hspells', hend⟩ := tilesFrom_cons_iff.1 hrest
  rw [Token.piece, hts, hte] at htb
  rw [Token.piece, hus, huf] at hub
  rw [htk] at hspells
  rw [huk, Token.depth, htk] at hspells'
  have hle : f ≤ cs.length := Int.ofNat_le.1 hend.abut.le
  have hnext : cs[e]? = some cs[e] := List.getElem?_eq_getElem (by omega)
  have hstop := (hspells.stops_next htb).2 cs[e] hnext
  refine (hspells'.stops_next hub).1 cs[e] ?_ hstop
  rw [slice, List.drop_eq_getElem_cons (by rw [List.length_take]; omega), List.getElem_take]
  exact List.mem_cons_self

end TilesFrom

/-- The tokens of a text that does not end in a lone backslash tile it, and any tokens that tile
it are the same up to lines, columns and files. No text is empty, no character is lost or read
twice, and no two runs stand next to each other. -/
theorem tokens_tile (file : Option String) (text : String) (h : endsLone text.toList = false) :
    ∃ ts, (Template.tokens file text).value = .ok ts ∧ Tiling text.toList ts ∧
      (∀ ts', Tiling text.toList ts' → ts'.map Token.reading = ts.map Token.reading) ∧
      (∀ t ∈ ts, t.kind = .text → t.value ≠ "") ∧
      ts.flatMap (Token.piece text.toList) = text.toList ∧
      ∀ before t u after, ts = before ++ t :: u :: after →
        ¬ (t.IsRun text.toList ∧ u.IsRun text.toList) := by
  obtain ⟨xs, tail, hxs⟩ := exists_lexed 0 text.toList
  have htail : tail = [] := by rw [hxs.tail_eq, h]; rfl
  subst htail
  have hts : Tiling text.toList (place file {} xs) :=
    tilesFrom_place hxs rfl file text.toList 0 {} rfl (Nat.zero_le _) rfl
  refine ⟨place file {} xs, ?_, hts, ?_, fun t ht _ => hts.value_ne_empty ht, hts.flatMap_piece, ?_⟩
  · rw [Template.tokens_of_lexed hxs file, if_pos rfl]
  · intro ts' h'
    obtain ⟨xs', hxs', hread⟩ := h'.lexed file {} rfl
    obtain ⟨rfl, -⟩ := lexed_unique hxs hxs'
    exact hread
  · intro before t u after heq
    rw [heq] at hts
    exact hts.not_adjacent_runs

/-- An escaped brace opens no block, and a bar outside all blocks is part of the run around it. -/
theorem tokens_tile_escaped_brace :
    endsLone "a\\\x7b|\x7b|b\x7d".toList = false ∧
      ∃ ts, (Template.tokens none "a\\\x7b|\x7b|b\x7d").value = .ok ts ∧
        Tiling "a\\\x7b|\x7b|b\x7d".toList ts ∧
        ts.map Token.reading =
          [(.text, "a", 0, 1), (.text, "\x7b", 1, 3), (.text, "|", 3, 4), (.opening, "\x7b", 4, 5),
            (.bar, "|", 5, 6), (.text, "b", 6, 7), (.closing, "\x7d", 7, 8)] := by
  have h : endsLone "a\\\x7b|\x7b|b\x7d".toList = false := by decide
  obtain ⟨ts, hts, htile, -⟩ := tokens_tile none "a\\\x7b|\x7b|b\x7d" h
  have hcs : "a\\\x7b|\x7b|b\x7d".toList = ['a', '\\', '{', '|', '{', '|', 'b', '}'] := by decide
  have hxs : Lexed 0 "a\\\x7b|\x7b|b\x7d".toList
      [.run 'a' [], .escape '{', .run '|' [], .opening, .bar, .run 'b' [], .closing] [] := by
    rw [hcs]
    refine .cons (.run ?_ ?_ rfl) (.cons .escape (.cons (.run ?_ ?_ rfl) (.cons .opening
      (.cons (.bar Nat.one_pos) (.cons (.run ?_ ?_ rfl) (.cons .closing .nil))))))
    all_goals simp [Stops, Lexeme.depth]
  have hv := Template.tokens_of_lexed hxs none
  rw [if_pos rfl, hts] at hv
  obtain rfl := Except.ok.inj hv
  exact ⟨h, _, hts, htile, by decide⟩

end Spintax
