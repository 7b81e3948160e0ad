import Spintax.Proofs.Coverage

/-!
# Spintax.Proofs.Allotment

How the tokens of a tree fall to its children. The tokens of a pattern are those of its parts, one
part after the other. The tokens of a block are its two braces and, between them, those of its
options with a bar between two of them. This holds of every tree that a parser has built so far,
also inside the blocks that are still open.

* `Tree.Allots us t`: the tokens `us` of `t` fall to its children.
* `Tree.Rowed ts t`: every tree inside `t` has a row of tokens of `ts`, which falls to its children.
* `State.Holds P s`: all trees of a parser at work have the property `P`.
* `parse_rowed`: this for the tree of a list of tokens.
-/

namespace Spintax

namespace Tree

inductive Allots (us : List Token) : Tree → Prop where
  | text {content : String} {l : Location} : Allots us (.text content l)
  | pattern {first : Tree} {rest : List Tree} {l : Location} :
      Along Covers us (first :: rest) → Allots us (.pattern first rest l)
  | block {first last : Tree} {rest before : List Tree} {l : Location} {o z : Token}
      {vs ws : List Token} : us = o :: (vs ++ ws ++ [z]) → o.kind = .opening → z.kind = .closing →
      first :: rest = before ++ [last] → Along Barred vs before → Covers ws last →
      Allots us (.block first rest l)

/-- The tree is written with some of the tokens, which stand in a row. -/
def InRow (ts : List Token) (t : Tree) : Prop :=
  ∃ us, us <:+: ts ∧ Spans us t ∧ Allots us t

def Rowed (ts : List Token) (t : Tree) : Prop :=
  ∀ u, u.Within t → InRow ts u

section

variable {ts us vs : List Token} {t newest : Tree} {older : List Tree}

theorem Rowed.append (h : Rowed ts t) (us : List Token) : Rowed (ts ++ us) t := by
  intro u hu
  obtain ⟨vs, hvs, hu⟩ := h u hu
  exact ⟨vs, hvs.trans (List.prefix_append ts us).isInfix, hu⟩

theorem Rowed.of_children (h : InRow ts t) (hc : ∀ c ∈ t.children, Rowed ts c) : Rowed ts t := by
  intro u hu
  cases hu with
  | self => exact h
  | child hm hu => exact hc _ hm u hu

theorem rowed_text {token : Token} (hm : token ∈ ts) (hk : token.kind = .text)
    (h : token.location.stop ≠ 0) : Rowed ts (.text token.value token.location) := by
  refine .of_children ⟨[token], ?_, (covers_text hk h).spans, .text⟩ (by simp [children])
  obtain ⟨before, after, rfl⟩ := List.append_of_mem hm
  exact ⟨before, after, by simp⟩

theorem rowed_patternOf (hus : us <:+: ts) (h : Along Covers us (newest :: older).reverse)
    (hc : ∀ t ∈ newest :: older, Rowed ts t) : Rowed ts (patternOf newest older) := by
  have hspans := (covers_patternOf h).spans
  have hchildren : ∀ c ∈ (patternOf newest older).children, Rowed ts c := by
    intro c hm
    rw [children_patternOf, List.mem_reverse] at hm
    exact hc c hm
  refine .of_children ?_ hchildren
  obtain ⟨first, rest, hr⟩ := List.exists_cons_of_ne_nil (List.reverse_ne_nil_iff.2
    (List.cons_ne_nil newest older))
  rw [hr] at h
  rw [patternOf_eq hr] at hspans ⊢
  exact ⟨us, hus, hspans, .pattern h⟩

theorem rowed_blockOf {a z : Token} (hts : a :: (us ++ vs ++ [z]) <:+: ts)
    (ha : a.kind = .opening) (hz : z.kind = .closing) (hstop : z.location.stop ≠ 0)
    (ho : Along Barred us older.reverse) (hn : Covers vs newest)
    (hc : ∀ t ∈ newest :: older, Rowed ts t) :
    Rowed ts (blockOf newest older (a.location.spanTo z.location)) := by
  have hspans := (covers_blockOf ha hz hstop ho hn).spans
  have hchildren : ∀ c ∈ (blockOf newest older (a.location.spanTo z.location)).children,
      Rowed ts c := by
    intro c hm
    rw [children_blockOf, List.mem_reverse] at hm
    exact hc c hm
  refine .of_children ?_ hchildren
  obtain ⟨first, rest, hr⟩ := List.exists_cons_of_ne_nil (List.reverse_ne_nil_iff.2
    (List.cons_ne_nil newest older))
  rw [blockOf_eq hr] at hspans ⊢
  rw [List.reverse_cons] at hr
  exact ⟨_, hts, hspans, .block rfl ha hz hr.symm ho hn⟩

end

end Tree

namespace Parser

open Spintax.Tree

namespace State

/-- All trees of a parser at work, those of the open blocks among them. -/
structure Holds (P : Tree → Prop) (s : State) : Prop where
  parts : ∀ t ∈ s.parts, P t
  frames : ∀ f ∈ s.frames, (∀ t ∈ f.before, P t) ∧ ∀ t ∈ f.options, P t

theorem Holds.mono {P Q : Tree → Prop} {s : State} (h : s.Holds P) (hpq : ∀ t, P t → Q t) :
    s.Holds Q :=
  ⟨fun t ht => hpq t (h.parts t ht), fun f hf =>
    ⟨fun t ht => hpq t ((h.frames f hf).1 t ht), fun t ht => hpq t ((h.frames f hf).2 t ht)⟩⟩

variable {limit : Nat} {s s' : State} {t : Token} {ts us : List Token}

theorem Reads.holds_rowed (h : Reads limit s t s') (ht : t.location.stop ≠ 0)
    (hs : s.Covered ts) (hr : s.Holds (Rowed ts)) : s'.Holds (Rowed (ts ++ [t])) := by
  obtain ⟨hparts, hframes⟩ := hr.mono fun u hu => hu.append [t]
  obtain ⟨us, vs, rfl, hcover, hrow⟩ := hs
  cases h with
  | text hk =>
    refine ⟨?_, hframes⟩
    intro u hu
    rcases List.mem_cons.1 hu with rfl | hu
    · exact rowed_text (by simp) hk ht
    · exact hparts u hu
  | opening hk hd =>
    refine ⟨fun u hu => absurd hu List.not_mem_nil, ?_⟩
    intro f hf
    rcases List.mem_cons.1 hf with rfl | hf
    · exact ⟨hparts, fun u hu => absurd hu List.not_mem_nil⟩
    · exact hframes f hf
  | @bar position depth f frames part parts _ hk =>
    have hvs : vs <:+: us ++ vs ++ [t] := ⟨us, [t], rfl⟩
    have hpattern := rowed_patternOf hvs hrow hparts
    refine ⟨fun u hu => absurd hu List.not_mem_nil, ?_⟩
    intro g hg
    rcases List.mem_cons.1 hg with rfl | hg
    · obtain ⟨hbefore, hoptions⟩ := hframes f List.mem_cons_self
      exact ⟨hbefore, List.forall_mem_cons.2 ⟨hpattern, hoptions⟩⟩
    · exact hframes g (List.mem_cons_of_mem _ hg)
  | @closing position depth f frames part parts _ hk =>
    obtain ⟨hbefore, hoptions⟩ := hframes f List.mem_cons_self
    cases hcover with
    | @cons us vs₀ ws _ _ hrest hcovered hopening hbarred =>
      have hvs : vs <:+: us ++ vs₀ ++ f.opening :: ws ++ vs ++ [t] := ⟨_, [t], rfl⟩
      have hpattern := rowed_patternOf hvs hrow hparts
      have hblock : f.opening :: (ws ++ vs ++ [t]) <:+: us ++ vs₀ ++ f.opening :: ws ++ vs ++ [t] :=
        ⟨us ++ vs₀, [], by simp⟩
      have hrowed := rowed_blockOf hblock hopening hk ht hbarred (covers_patternOf hrow)
        (List.forall_mem_cons.2 ⟨hpattern, hoptions⟩)
      exact ⟨List.forall_mem_cons.2 ⟨hrowed, hbefore⟩,
        fun g hg => hframes g (List.mem_cons_of_mem _ hg)⟩

theorem run_holds_rowed (h : s.run limit ts = .ok s') (ht : ∀ t ∈ ts, t.location.stop ≠ 0)
    (hs : s.Covered us) (hr : s.Holds (Rowed us)) : s'.Holds (Rowed (us ++ ts)) := by
  induction ts generalizing s us with
  | nil =>
    cases h
    rwa [List.append_nil]
  | cons t ts ih =>
    obtain ⟨s₁, h₁, h⟩ := run_cons_ok_iff.1 h
    have htstop := ht t (by simp)
    have := ih h (fun t ht' => ht t (by simp [ht'])) (h₁.covered htstop hs)
      (h₁.holds_rowed htstop hs hr)
    rwa [List.append_assoc] at this

theorem finish_rowed {tree : Tree} (h : s.finish = .ok tree) (hs : s.Covered ts)
    (hr : s.Holds (Rowed ts)) : Rowed ts tree := by
  obtain ⟨position, depth, frames, parts⟩ := s
  obtain ⟨us, vs, rfl, -, hrow⟩ := hs
  cases parts with
  | nil => cases h
  | cons part parts =>
    cases frames with
    | nil =>
      cases h
      exact rowed_patternOf (List.suffix_append us vs).isInfix hrow hr.parts
    | cons f frames => cases h

end State

/-- The tokens of every tree that is built fall to its children. -/
theorem parse_rowed {limit : Nat} {file : Option String} {tokens : List Token} {t : Tree}
    (h : (fresh limit file tokens).parse.1 = .ok t)
    (hstop : ∀ token ∈ tokens, token.location.stop ≠ 0) : Rowed tokens t := by
  rw [parse_fresh] at h
  cases hr : (State.start 0 0).run limit tokens with
  | error e =>
    rw [hr] at h
    cases h
  | ok s =>
    rw [hr] at h
    have hcovered := State.start_covered 0 0
    have hstart : (State.start 0 0).Holds (Rowed []) :=
      ⟨by simp [State.start], by simp [State.start]⟩
    exact State.finish_rowed h (State.run_covered hr hstop hcovered)
      (State.run_holds_rowed hr hstop hcovered hstart)

end Parser
end Spintax
