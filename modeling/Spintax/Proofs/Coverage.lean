import Mathlib.Data.List.Forall2
import Spintax.Proofs.ParserCorrect
import Spintax.Proofs.Sameness

/-!
# Spintax.Proofs.Coverage

The tokens behind every tree that a parser builds. A tree is written with tokens that stand in a
row, and its location reaches from the first of them to the last.

* `Tree.Spans us t`: the tree is written with the tokens `us`, and its location is theirs.
* `Tree.Covers us t`: the same, and so is every tree inside it with some of the tokens.
* `State.Covered ts`: all that was built while `ts` was read covers its part of `ts`.
* `parse_covers`: the tree of a list of tokens covers all of them.
-/

namespace Spintax

namespace Location

theorem spanTo_self {l : Location} (h : l.stop ≠ 0) : l.spanTo l = l := by
  simp [spanTo, h]

theorem spanTo_spanTo {a b c d : Location} (h : d.stop ≠ 0) :
    (a.spanTo b).spanTo (c.spanTo d) = a.spanTo d := by
  simp [spanTo, h]

end Location

namespace Tree

open Spintax.Parser (symbols_patternOf symbols_blockOf)

/-- The tree is written with these tokens, and stands where they stand. -/
structure Spans (us : List Token) (t : Tree) : Prop where
  symbols_eq : us.map Token.symbol = t.symbols
  ends : ∃ a z, us.head? = some a ∧ us.getLast? = some z ∧ z.location.stop ≠ 0 ∧
    t.location = a.location.spanTo z.location

structure Covers (us : List Token) (t : Tree) : Prop where
  spans : Spans us t
  inner : ∀ u, u.Within t → ∃ vs, vs <:+: us ∧ Spans vs u

/-- An option and the bar behind it. -/
def Barred (us : List Token) (t : Tree) : Prop :=
  ∃ vs b, us = vs ++ [b] ∧ b.kind = .bar ∧ Covers vs t

/-- The tokens are those of each tree, one tree after the other. -/
def Along (R : List Token → Tree → Prop) (us : List Token) (ts : List Tree) : Prop :=
  ∃ vss, us = vss.flatten ∧ List.Forall₂ R vss ts

namespace Along

variable {R : List Token → Tree → Prop} {us vs : List Token} {t : Tree} {ts : List Tree}

theorem nil : Along R [] [] :=
  ⟨[], rfl, .nil⟩

theorem concat (h : Along R us ts) (ht : R vs t) : Along R (us ++ vs) (ts ++ [t]) := by
  obtain ⟨vss, rfl, hvss⟩ := h
  exact ⟨vss ++ [vs], by simp, List.rel_append hvss (.cons ht .nil)⟩

theorem exists_of_mem (h : Along R us ts) (ht : t ∈ ts) : ∃ vs, vs <:+: us ∧ R vs t := by
  obtain ⟨vss, rfl, hvss⟩ := h
  induction hvss with
  | nil => cases ht
  | @cons vs u vss ts hu _ ih =>
    rw [List.flatten_cons]
    rcases List.mem_cons.1 ht with rfl | ht
    · exact ⟨vs, (List.prefix_append vs _).isInfix, hu⟩
    · obtain ⟨ws, hws, hR⟩ := ih ht
      exact ⟨ws, hws.trans (List.suffix_append vs _).isInfix, hR⟩

theorem split {us : List Token} {ts ts' : List Tree} (h : Along R us (ts ++ ts')) :
    ∃ vs ws, us = vs ++ ws ∧ Along R vs ts ∧ Along R ws ts' := by
  obtain ⟨vss, rfl, hvss⟩ := h
  refine ⟨(vss.take ts.length).flatten, (vss.drop ts.length).flatten, ?_, ?_, ?_⟩
  · rw [← List.flatten_append, List.take_append_drop]
  · exact ⟨_, rfl, List.forall₂_take_append vss ts ts' hvss⟩
  · exact ⟨_, rfl, List.forall₂_drop_append vss ts ts' hvss⟩

theorem singleton (h : Along R us [t]) : R us t := by
  obtain ⟨vss, rfl, hvss⟩ := h
  cases hvss with
  | cons ht hnil =>
    cases hnil
    simpa using ht

theorem symbols_eq {f : Tree → List Symbol} (hf : ∀ vs t, R vs t → vs.map Token.symbol = f t)
    (h : Along R us ts) : us.map Token.symbol = ts.flatMap f := by
  obtain ⟨vss, rfl, hvss⟩ := h
  induction hvss with
  | nil => rfl
  | cons hu _ ih =>
    rw [List.flatten_cons, List.map_append, hf _ _ hu, ih, List.flatMap_cons]

end Along

variable {us vs ws : List Token} {t newest : Tree} {older : List Tree}

theorem covers_text {token : Token} (hk : token.kind = .text) (h : token.location.stop ≠ 0) :
    Covers [token] (.text token.value token.location) := by
  have hspans : Spans [token] (.text token.value token.location) :=
    ⟨by simp [Token.symbol, hk, symbols],
      token, token, rfl, rfl, h, (Location.spanTo_self h).symm⟩
  refine ⟨hspans, ?_⟩
  intro u hu
  cases hu with
  | self => exact ⟨_, List.infix_rfl, hspans⟩
  | child hc _ => cases hc

theorem Barred.symbols_eq (h : Barred us t) : us.map Token.symbol = t.symbols ++ [.bar] := by
  obtain ⟨vs, b, rfl, hb, ht⟩ := h
  rw [List.map_append, ht.spans.symbols_eq]
  simp [Token.symbol, hb]

/-- What covers all parts from the first to the last covers the pattern. -/
theorem covers_patternOf (h : Along Covers us (newest :: older).reverse) :
    Covers us (patternOf newest older) := by
  have hsymbols : us.map Token.symbol = (patternOf newest older).symbols := by
    rw [symbols_patternOf]
    exact h.symbols_eq fun vs t ht => ht.spans.symbols_eq
  have hspans : Spans us (patternOf newest older) := by
    refine ⟨hsymbols, ?_⟩
    -- the first and the last part, each with its own tokens
    obtain ⟨first, rest, hr⟩ := List.exists_cons_of_ne_nil (List.reverse_ne_nil_iff.2
      (List.cons_ne_nil newest older))
    have hlast := h
    rw [List.reverse_cons] at hlast
    obtain ⟨ws', ws, rfl, -, hws⟩ := hlast.split
    rw [hr, ← List.singleton_append] at h
    obtain ⟨vs, vs', hus, hvs, -⟩ := h.split
    obtain ⟨a, y, ha, -, -, hfirst⟩ := hvs.singleton.spans.ends
    obtain ⟨b, z, -, hz, hstop, hnewest⟩ := hws.singleton.spans.ends
    refine ⟨a, z, ?_, ?_, hstop, ?_⟩
    · rw [hus, List.head?_append, ha]
      rfl
    · rw [List.getLast?_append, hz]
      rfl
    · rw [patternOf_eq hr, location, hfirst, hnewest, Location.spanTo_spanTo hstop]
  refine ⟨hspans, ?_⟩
  intro u hu
  cases hu with
  | self => exact ⟨us, List.infix_rfl, hspans⟩
  | child hc hu =>
    rw [children_patternOf] at hc
    obtain ⟨vs, hvs, ht⟩ := h.exists_of_mem hc
    obtain ⟨ws, hws, hu⟩ := ht.inner u hu
    exact ⟨ws, hws.trans hvs, hu⟩

theorem covers_blockOf {a z : Token} (ha : a.kind = .opening) (hz : z.kind = .closing)
    (hstop : z.location.stop ≠ 0) (ho : Along Barred us older.reverse) (hn : Covers vs newest) :
    Covers (a :: (us ++ vs ++ [z])) (blockOf newest older (a.location.spanTo z.location)) := by
  have hsymbols : (a :: (us ++ vs ++ [z])).map Token.symbol =
      (blockOf newest older (a.location.spanTo z.location)).symbols := by
    rw [symbols_blockOf, List.map_cons, List.map_append, List.map_append,
      ho.symbols_eq fun vs t ht => ht.symbols_eq, hn.spans.symbols_eq]
    simp [Token.symbol, ha, hz]
  have hspans : Spans (a :: (us ++ vs ++ [z]))
      (blockOf newest older (a.location.spanTo z.location)) := by
    refine ⟨hsymbols, a, z, rfl, ?_, hstop, rfl⟩
    rw [← List.cons_append, List.getLast?_concat]
  refine ⟨hspans, ?_⟩
  intro u hu
  cases hu with
  | self => exact ⟨_, List.infix_rfl, hspans⟩
  | child hc hu =>
    have hinside : us ++ vs <:+: a :: (us ++ vs ++ [z]) := ⟨[a], [z], by simp⟩
    rw [children_blockOf, List.mem_reverse] at hc
    rcases List.mem_cons.1 hc with rfl | hc
    · obtain ⟨ws, hws, hu⟩ := hn.inner u hu
      exact ⟨ws, hws.trans ((List.suffix_append us vs).isInfix.trans hinside), hu⟩
    · obtain ⟨ws, hws, xs, b, rfl, -, hcovers⟩ := ho.exists_of_mem (List.mem_reverse.2 hc)
      obtain ⟨ys, hys, hu⟩ := hcovers.inner u hu
      have hxs : xs <:+: us := (List.prefix_append xs [b]).isInfix.trans hws
      exact ⟨ys, hys.trans (hxs.trans ((List.prefix_append us vs).isInfix.trans hinside)), hu⟩

end Tree

namespace Parser

open Spintax.Tree

/-- The tokens read before the option in progress. -/
inductive FramesCover : List Token → List Frame → Prop where
  | nil : FramesCover [] []
  | cons {us vs ws : List Token} {f : Frame} {frames : List Frame} :
      FramesCover us frames → Along Covers vs f.before.reverse → f.opening.kind = .opening →
      Along Barred ws f.options.reverse → FramesCover (us ++ vs ++ f.opening :: ws) (f :: frames)

namespace State

def Covered (ts : List Token) (s : State) : Prop :=
  ∃ us vs, ts = us ++ vs ∧ FramesCover us s.frames ∧ Along Covers vs s.parts.reverse

variable {limit : Nat} {s s' : State} {t : Token} {ts us : List Token}

theorem start_covered (position depth : Nat) : (start position depth).Covered [] :=
  ⟨[], [], rfl, .nil, .nil⟩

theorem Reads.covered (h : Reads limit s t s') (ht : t.location.stop ≠ 0) (hs : s.Covered ts) :
    s'.Covered (ts ++ [t]) := by
  obtain ⟨us, vs, rfl, hframes, hparts⟩ := hs
  cases h with
  | text hk =>
    refine ⟨us, vs ++ [t], by simp, hframes, ?_⟩
    show Along Covers (vs ++ [t]) (.text t.value t.location :: s.parts).reverse
    rw [List.reverse_cons]
    exact hparts.concat (covers_text hk ht)
  | @opening position depth frames parts _ hk hd =>
    have hframe : FramesCover (us ++ vs ++ [t]) (⟨position, t, parts, []⟩ :: frames) :=
      .cons (f := ⟨position, t, parts, []⟩) hframes hparts hk .nil
    exact ⟨us ++ vs ++ [t], [], by simp, hframe, .nil⟩
  | @bar position depth f frames part parts _ hk =>
    cases hframes with
    | @cons us vs₀ ws _ _ hrest hbefore hopening hoptions =>
      have hbarred : Barred (vs ++ [t]) (patternOf part parts) :=
        ⟨vs, t, rfl, hk, covers_patternOf hparts⟩
      have hoptions' := hoptions.concat hbarred
      rw [← List.reverse_cons] at hoptions'
      refine ⟨us ++ vs₀ ++ f.opening :: (ws ++ (vs ++ [t])), [], by simp, ?_, .nil⟩
      exact .cons (f := { f with options := patternOf part parts :: f.options }) hrest hbefore
        hopening hoptions'
  | @closing position depth f frames part parts _ hk =>
    cases hframes with
    | @cons us vs₀ ws _ _ hrest hbefore hopening hoptions =>
      have hblock := covers_blockOf hopening hk ht hoptions (covers_patternOf hparts)
      have hparts' := hbefore.concat hblock
      rw [← List.reverse_cons] at hparts'
      exact ⟨us, vs₀ ++ f.opening :: (ws ++ vs ++ [t]), by simp, hrest, hparts'⟩

theorem run_covered (h : s.run limit ts = .ok s') (ht : ∀ t ∈ ts, t.location.stop ≠ 0)
    (hs : s.Covered us) : s'.Covered (us ++ ts) := by
  induction ts generalizing s us with
  | nil =>
    cases h
    rwa [List.append_nil]
  | cons t ts ih =>
    obtain ⟨s₁, h₁, h⟩ := run_cons_ok_iff.1 h
    have := ih h (fun t ht' => ht t (by simp [ht'])) (h₁.covered (ht t (by simp)) hs)
    rwa [List.append_assoc] at this

theorem finish_covered {tree : Tree} (h : s.finish = .ok tree) (hs : s.Covered ts) :
    Covers ts tree := by
  obtain ⟨position, depth, frames, parts⟩ := s
  obtain ⟨us, vs, rfl, hframes, hparts⟩ := hs
  cases parts with
  | nil => cases h
  | cons part parts =>
    cases frames with
    | nil =>
      cases h
      cases hframes
      exact covers_patternOf hparts
    | cons f frames => cases h

end State

/-- The tree of a list of tokens covers all of them. -/
theorem parse_covers {limit : Nat} {file : Option String} {tokens : List Token} {t : Tree}
    (h : (fresh limit file tokens).parse.1 = .ok t)
    (hstop : ∀ token ∈ tokens, token.location.stop ≠ 0) : Covers tokens t := by
  rw [parse_fresh] at h
  cases hr : (State.start 0 0).run limit tokens with
  | error e =>
    rw [hr] at h
    cases h
  | ok s =>
    rw [hr] at h
    exact State.finish_covered h (State.run_covered hr hstop (State.start_covered 0 0))

end Parser
end Spintax
