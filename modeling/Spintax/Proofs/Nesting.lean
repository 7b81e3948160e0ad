import Spintax.Proofs.Allotment
import Spintax.Proofs.Positions
import Spintax.Proofs.Spelling

/-!
# Spintax.Proofs.Nesting

Where the trees of a template stand in its text. The parts of a pattern share its stretch of text
between them without a gap. The options of a block share what its braces enclose, but for one bar
between two of them.

* `Stretch cs file a us b`: the tokens `us` are those of the text from `a` to `b`.
* `Adjoining`, `Divided`: trees behind one another, with nothing and with bars between them.
* `Tree.Laid cs file t`: where `t` stands, and where its children stand in it.
* `locations_nest`: this for every tree of a template.
-/

namespace Spintax

/-! ## Tokens and their stretch of text -/

/-- The tokens of the text from `a` to `b`. -/
def Stretch (cs : List Char) (file : Option String) (a : Nat) (us : List Token) (b : Nat) : Prop :=
  ∃ (before after : List Char) (ys : List Lexeme),
    cs = before ++ ys.flatMap Lexeme.chars ++ after ∧ a = before.length ∧
      b = (before ++ ys.flatMap Lexeme.chars).length ∧ us = place file (({} : Mark).past before) ys

/-- The place of the text from `a` to `b`. -/
def placeOf (cs : List Char) (file : Option String) (a b : Nat) : Location :=
  ⟨lineAt cs a, columnAt cs a, a, b, file⟩

namespace Stretch

variable {cs : List Char} {file : Option String} {a b c : Nat} {us vs : List Token} {t : Token}

theorem of_infix {xs : List Lexeme} (hcs : cs = xs.flatMap Lexeme.chars)
    (h : us <:+: place file {} xs) : ∃ a b, Stretch cs file a us b := by
  obtain ⟨before, ys, after, rfl, rfl⟩ := exists_of_infix_place h
  refine ⟨_, _, before.flatMap Lexeme.chars, after.flatMap Lexeme.chars, ys, ?_, rfl, rfl, rfl⟩
  rw [hcs, List.flatMap_append, List.flatMap_append]

theorem split (h : Stretch cs file a (us ++ vs) c) :
    ∃ b, Stretch cs file a us b ∧ Stretch cs file b vs c := by
  obtain ⟨before, after, ys, rfl, rfl, rfl, hus⟩ := h
  obtain ⟨ys, zs, rfl, rfl, rfl⟩ := append_eq_place hus
  refine ⟨_, ⟨before, zs.flatMap Lexeme.chars ++ after, ys, ?_, rfl, rfl, rfl⟩,
    before ++ ys.flatMap Lexeme.chars, after, zs, ?_, rfl, ?_, ?_⟩
  · simp
  · simp
  · simp
  · rw [Mark.past_append]

theorem eq_of_nil (h : Stretch cs file a [] b) : a = b := by
  obtain ⟨before, after, ys, -, rfl, rfl, hus⟩ := h
  cases ys with
  | nil => simp
  | cons y ys => cases hus

/-- A brace or a bar stands where its token stands. -/
theorem eq_of_kind {x : Lexeme} (h : Stretch cs file a [t] b) (hk : t.kind = x.kind)
    (hx : x.kind ≠ .text) : b = a + x.chars.length ∧ cs[a]? = x.chars.head? := by
  obtain ⟨before, after, ys, rfl, rfl, rfl, hus⟩ := h
  cases ys with
  | nil => cases hus
  | cons y ys =>
    cases ys with
    | cons y' ys => cases hus
    | nil =>
      obtain rfl := (List.cons.inj hus).1
      obtain rfl : x = y := by
        cases x <;> cases y <;> simp_all [Lexeme.kind, Lexeme.token]
      obtain ⟨c, rest, hchars⟩ := List.exists_cons_of_ne_nil x.chars_ne_nil
      simp [hchars]

theorem location_eq {z : Token} (h : Stretch cs file a us b) (ht : us.head? = some t)
    (hz : us.getLast? = some z) :
    t.location.spanTo z.location = placeOf cs file a b ∧ a < b ∧ b ≤ cs.length := by
  obtain ⟨before, after, ys, rfl, rfl, rfl, rfl⟩ := h
  have hstop := stop_ne_zero_of_place (List.mem_of_getLast? hz)
  have hmark := Mark.past_eq (List.append_assoc before (ys.flatMap Lexeme.chars) after)
  have hlast := stop_of_getLast? hz
  rw [← Mark.past_append, Mark.past_offset, Nat.zero_add] at hlast
  cases ys with
  | nil => cases ht
  | cons y ys =>
    cases ht
    refine ⟨?_, ?_, ?_⟩
    · rw [Location.spanTo, if_neg hstop, hlast]
      simp only [Lexeme.token, hmark]
      rfl
    · have := List.length_pos_iff.2 y.chars_ne_nil
      simp only [List.flatMap_cons, List.length_append]
      omega
    · simp only [List.length_append]
      omega

theorem location_of_spans {u : Tree} (h : Stretch cs file a us b) (hu : Tree.Spans us u) :
    u.location = placeOf cs file a b ∧ a < b ∧ b ≤ cs.length := by
  obtain ⟨t, z, ht, hz, -, hlocation⟩ := hu.ends
  rw [hlocation]
  exact h.location_eq ht hz

end Stretch

/-! ## Trees behind one another -/

/-- Each tree starts where the one before it ends, from `a` to `b`. -/
def Adjoining : Int → List Tree → Int → Prop
  | a, [], b => a = b
  | a, t :: ts, b => t.location.start = a ∧ Adjoining t.location.stop ts b

/-- One bar stands between two trees, from `a` to `b`. -/
def Divided (cs : List Char) : Int → List Tree → Int → Prop
  | _, [], _ => False
  | a, [t], b => t.location.start = a ∧ t.location.stop = b
  | a, t :: u :: ts, b =>
    t.location.start = a ∧ cs[t.location.stop.toNat]? = some '|' ∧
      Divided cs (t.location.stop + 1) (u :: ts) b

namespace Tree

/-- Where a tree stands, and where its children stand in it. -/
structure Laid (cs : List Char) (file : Option String) (t : Tree) : Prop where
  stands : ∃ a b : Nat, t.location = placeOf cs file a b ∧ a < b ∧ b ≤ cs.length
  parts : ∀ first rest l, t = .pattern first rest l → Adjoining l.start (first :: rest) l.stop
  options : ∀ first rest l, t = .block first rest l →
    cs[l.start.toNat]? = some '{' ∧ Divided cs (l.start + 1) (first :: rest) (l.stop - 1) ∧
      cs[(l.stop - 1).toNat]? = some '}'

end Tree

section Children

variable {cs : List Char} {file : Option String} {a b : Nat} {us vs : List Token}

open Spintax.Tree (Along Covers Barred)

theorem Tree.Along.uncons {R : List Token → Tree → Prop} {t : Tree} {ts : List Tree}
    (h : Along R us (t :: ts)) : ∃ vs ws, us = vs ++ ws ∧ R vs t ∧ Along R ws ts := by
  rw [← List.singleton_append] at h
  obtain ⟨vs, ws, hus, ht, hts⟩ := h.split
  exact ⟨vs, ws, hus, ht.singleton, hts⟩

theorem adjoining_of_along {ts : List Tree} (h : Stretch cs file a us b)
    (hts : Along Covers us ts) : Adjoining a ts b := by
  induction ts generalizing a us with
  | nil =>
    obtain ⟨vss, rfl, hvss⟩ := hts
    cases hvss
    exact congrArg _ h.eq_of_nil
  | cons t ts ih =>
    obtain ⟨vs, ws, rfl, ht, hts⟩ := hts.uncons
    obtain ⟨c, hvs, hws⟩ := h.split
    have hlocation := (hvs.location_of_spans ht.spans).1
    rw [Adjoining, hlocation]
    exact ⟨rfl, ih hws hts⟩

theorem divided_of_along {ts : List Tree} {last : Tree} {c : Nat} (h : Stretch cs file a us b)
    (hts : Along Barred us ts) (h' : Stretch cs file b vs c) (hlast : Covers vs last) :
    Divided cs a (ts ++ [last]) c := by
  induction ts generalizing a us with
  | nil =>
    obtain ⟨vss, rfl, hvss⟩ := hts
    cases hvss
    rw [h.eq_of_nil, List.nil_append, Divided, (h'.location_of_spans hlast.spans).1]
    exact ⟨rfl, rfl⟩
  | cons t ts ih =>
    obtain ⟨us, ws, rfl, ⟨xs, bar, rfl, hbar, ht⟩, hrest⟩ := hts.uncons
    obtain ⟨d, hus, hws⟩ := h.split
    obtain ⟨e, hxs, hb⟩ := hus.split
    obtain ⟨rfl, hchar⟩ := hb.eq_of_kind (x := .bar) hbar (by simp [Lexeme.kind])
    have hlocation := (hxs.location_of_spans ht.spans).1
    have hdivided := ih hws hrest
    obtain ⟨u, more, hmore⟩ := List.exists_cons_of_ne_nil (List.append_ne_nil_of_right_ne_nil ts
      (List.cons_ne_nil last []))
    rw [hmore] at hdivided
    rw [List.cons_append, hmore, Divided, hlocation]
    exact ⟨rfl, hchar, hdivided⟩

/-- A tree stands where its tokens stand, and its children stand where theirs do. -/
theorem laid_of_stretch {t : Tree} (h : Stretch cs file a us b) (hs : Tree.Spans us t)
    (ha : Tree.Allots us t) : t.Laid cs file := by
  obtain ⟨hlocation, hlt, hle⟩ := h.location_of_spans hs
  refine ⟨⟨a, b, hlocation, hlt, hle⟩, ?_, ?_⟩
  · rintro first rest l rfl
    obtain rfl : l = placeOf cs file a b := hlocation
    cases ha with
    | pattern hrow => exact adjoining_of_along h hrow
  · rintro first rest l rfl
    obtain rfl : l = placeOf cs file a b := hlocation
    cases ha with
    | block hus ho hz hchildren hbefore hlast =>
      rw [hus, ← List.singleton_append] at h
      obtain ⟨c, hopening, h⟩ := h.split
      obtain ⟨e, h, hclosing⟩ := h.split
      obtain ⟨d, hvs, hws⟩ := h.split
      obtain ⟨rfl, hfirst⟩ := hopening.eq_of_kind (x := .opening) ho (by simp [Lexeme.kind])
      obtain ⟨rfl, hend⟩ := hclosing.eq_of_kind (x := .closing) hz (by simp [Lexeme.kind])
      have hinside : ((e + Lexeme.closing.chars.length : Nat) : Int) - 1 = e := by
        simp [Lexeme.chars]
      have hdivided := divided_of_along hvs hbefore hws hlast
      rw [hchildren]
      simp only [placeOf, hinside]
      exact ⟨hfirst, hdivided, hend⟩

end Children

namespace Template

/-- The trees of a template and their places. The tree of the whole text is a pattern that reaches
from its start to its end. Every tree inside it stands somewhere, with the line and the column of
its first character, its parts or its options fill that stretch of text, and only braces and bars
stand between. -/
theorem locations_nest {limit : Nat} {file : Option String} {text : String} {t : Tree}
    (h : (compile limit file text).value = .ok t) :
    (∃ first rest, t = .pattern first rest (placeOf text.toList file 0 text.length)) ∧
      ∀ u : Tree, u.Within t → u.Laid text.toList file := by
  obtain ⟨xs, hx⟩ := exists_cut_of_compile h
  have hstop : ∀ token ∈ place file {} xs, token.location.stop ≠ 0 := fun _ => stop_ne_zero_of_place
  have hcovers := Parser.parse_covers hx.parse_eq hstop
  have hwhole : Stretch text.toList file 0 (place file {} xs) text.length :=
    ⟨[], [], xs, by simpa using hx.text_eq, rfl,
      by rw [List.nil_append, ← hx.text_eq, String.length_toList], rfl⟩
  have hlocation := (hwhole.location_of_spans hcovers.spans).1
  refine ⟨?_, ?_⟩
  · obtain ⟨first, rest, l, rfl⟩ := hx.isPattern.exists_eq
    exact ⟨first, rest, congrArg _ hlocation⟩
  · intro u hu
    obtain ⟨us, hus, hspans, hallots⟩ := Parser.parse_rowed hx.parse_eq hstop u hu
    obtain ⟨a, b, hstretch⟩ := Stretch.of_infix hx.text_eq hus
    exact laid_of_stretch hstretch hspans hallots

/-- A block on the second line, with two options and a brace that opens nothing. -/
theorem locations_nest_second_line :
    let text := "a\n\x7bb|\\\x7d\x7d"
    ∃ t u : Tree, (compile 1 (some "f") text).value = .ok t ∧ u.Within t ∧ t.location.stop = 8 ∧
      u.Laid text.toList (some "f") ∧ u.location = ⟨2, 1, 2, 8, some "f"⟩ ∧
      u.children.map (·.location) = [⟨2, 2, 3, 4, some "f"⟩, ⟨2, 4, 5, 7, some "f"⟩] := by
  intro text
  have hlexed : Lexed 0 text.toList
      [.run 'a' ['\n'], .opening, .run 'b' [], .bar, .escape '}', .closing] [] :=
    lexed_iff_cut.2 ⟨by decide, by decide⟩
  obtain ⟨part, first, second, l, m, h, hl, hfirst, hsecond⟩ :
      ∃ part first second l m, (compile 1 (some "f") text).value =
          .ok (.pattern part [.block first [second] l] m) ∧ l = ⟨2, 1, 2, 8, some "f"⟩ ∧
        first.location = ⟨2, 2, 3, 4, some "f"⟩ ∧ second.location = ⟨2, 4, 5, 7, some "f"⟩ :=
    ⟨_, _, _, _, _, (compile_of_lexed hlexed 1 (some "f")).trans rfl, rfl, rfl, rfl⟩
  have hu : (Tree.block first [second] l).Within (.pattern part [.block first [second] l] m) :=
    .child (by simp [Tree.children]) .self
  obtain ⟨⟨_, _, hroot⟩, hlaid⟩ := locations_nest h
  have hlength : text.length = 8 := by
    rw [← String.length_toList]
    decide
  rw [hlength] at hroot
  have hstop : (Tree.pattern part [.block first [second] l] m).location.stop = 8 := by
    rw [hroot]
    rfl
  refine ⟨_, _, h, hu, hstop, hlaid _ hu, hl, ?_⟩
  simp [Tree.children, hfirst, hsecond]

end Template
end Spintax
