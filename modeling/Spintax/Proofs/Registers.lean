import Spintax.Proofs.DescentCases
import Spintax.Proofs.LaterCalls

/-!
# Spintax.Proofs.Registers

The position, the current token and the depth of a parser, wherever a production is entered or left.

* `Cursor.Onward c c'`: what changes from `c` to `c'` while a production runs.
* `pattern_keeps`, `block_keeps`: a production goes onward, and with a tree it leaves the depth as
  it was.
* `Visit`, `patternVisits`: every entry and every exit of a production, in order.
* `Cursor.after`, `journal`: where some calls have come to, and all their visits.
* `registers_sound`: at each visit of each call the registers say what the tokens read say, and the
  position never moves back.
-/

namespace Spintax
namespace Descent

open Spintax.Parser

variable {ts : List Token} {limit : Nat}

namespace Cursor

/-- How far the depth is from counting the blocks that the tokens read leave open. -/
def drift (c : Cursor ts) : Int :=
  c.depth - rise (ts.take c.position)

theorem advance_drift {c : Cursor ts} {t : Token} (h : c.current = some t) {depth : Int}
    (hd : depth = c.depth + rise [t]) : (c.advance h depth).drift = c.drift := by
  have ht : ts[c.position]? = some t := by rw [← c.current_eq, h]
  simp only [drift, advance_position, advance_depth, List.take_add_one, ht, Option.toList_some,
    rise_append, hd]
  omega

/-- No token is given back, no block is left that was open before, and the depth counts as it
did. -/
structure Onward (c c' : Cursor ts) : Prop where
  position_le : c.position ≤ c'.position
  depth_le : c.depth ≤ c'.depth
  drift_eq : c'.drift = c.drift

theorem Onward.refl (c : Cursor ts) : c.Onward c :=
  ⟨Nat.le_refl _, Int.le_refl _, rfl⟩

theorem Onward.trans {c c₁ c₂ : Cursor ts} (h : c.Onward c₁) (h' : c₁.Onward c₂) : c.Onward c₂ :=
  ⟨Nat.le_trans h.position_le h'.position_le, Int.le_trans h.depth_le h'.depth_le,
    h'.drift_eq.trans h.drift_eq⟩

theorem advance_onward {c : Cursor ts} {t : Token} (h : c.current = some t) {depth : Int}
    (hd : depth = c.depth + rise [t]) (hr : 0 ≤ rise [t]) : c.Onward (c.advance h depth) := by
  refine ⟨Nat.le_succ _, ?_, advance_drift h hd⟩
  rw [advance_depth]
  omega

theorem advance_onward_of_opening {c : Cursor ts} {t : Token} (h : c.current = some t)
    (hk : t.kind = .opening) : c.Onward (c.advance h (c.depth + 1)) := by
  have hrise := rise_of_opening hk
  exact advance_onward h (by omega) (by omega)

/-- A text or a bar leaves the depth alone. -/
theorem advance_onward_of_flat {c : Cursor ts} {t : Token} (h : c.current = some t)
    (hk : t.kind = .text ∨ t.kind = .bar) : c.Onward (c.advance h c.depth) := by
  have hrise : rise [t] = 0 := by
    rw [rise_singleton]
    obtain hk | hk := hk
    · simp [hk]
    · simp [hk]
  exact advance_onward h (by omega) (by omega)

end Cursor

/-- A production that was entered at `c` goes onward. With a tree it leaves the depth as it was. -/
def Reply.Keeps {start : Nat} (c : Cursor ts) : Reply ts start → Prop
  | .done _ c' _ => c.Onward c' ∧ c'.depth = c.depth
  | .exit _ c' => c.Onward c'

theorem endPattern_keeps {c c₀ : Cursor ts} {start : Nat} {read : List Tree}
    (h : read ≠ [] → start < c.position) (hc : c₀.Onward c) (hd : c.depth = c₀.depth) :
    (c.endPattern start read h).Keeps c₀ := by
  unfold Cursor.endPattern
  split
  · split
    · exact hc
    · exact hc
  · dsimp only
    split
    · exact ⟨hc, hd⟩
    · exact hc

theorem endBlock_keeps {c c₀ : Cursor ts} {start : Nat} {opening : Token} {read : List Tree}
    (h : start < c.position) (hc : c₀.Onward c) (hd : c.depth = c₀.depth + 1) :
    (c.endBlock start opening read h).Keeps c₀ := by
  unfold Cursor.endBlock
  split
  · exact hc
  · rename_i t ht
    split
    · rename_i hk
      have hrise := rise_of_closing hk
      have hclosed : c₀.Onward (c.advance ht (c.depth - 1)) := by
        refine ⟨Nat.le_succ_of_le hc.position_le, ?_, ?_⟩
        · rw [Cursor.advance_depth]
          omega
        · rw [Cursor.advance_drift ht (by omega), hc.drift_eq]
      split
      · refine ⟨hclosed, ?_⟩
        rw [Cursor.advance_depth]
        omega
      · exact hclosed
    · exact hc

/-! ## The productions

By induction on the tokens that are left, as the productions recurse. The loops are compared with
the cursor `c₀` at which their production was entered. -/

mutual

theorem pattern_keeps (budget : Option Nat) (c : Cursor ts) :
    (pattern limit budget c).Keeps c := by
  cases hb : spend budget with
  | none =>
    rw [pattern_of_spent c hb]
    exact .refl c
  | some within =>
    rw [pattern_eq_parts c hb]
    exact parts_keeps c [] (Nat.le_refl _) (by simp) (.refl c) rfl
termination_by (ts.length - c.position, 2)

theorem parts_keeps {c₀ : Cursor ts} {start : Nat} {budget : Option Nat} (c : Cursor ts)
    (read : List Tree) (hs : start ≤ c.position) (hr : read ≠ [] → start < c.position)
    (hc : c₀.Onward c) (hd : c.depth = c₀.depth) :
    (parts limit budget start read c hs hr).Keeps c₀ := by
  obtain hstands | ⟨t, ht, hk⟩ | ⟨t, ht, hk⟩ := c.stands_or
  · rw [parts_of_stands hstands]
    exact endPattern_keeps hr hc hd
  · have hlt := Cursor.position_lt ht
    have hnext := Cursor.advance_onward_of_flat ht (.inl hk)
    rw [parts_of_text ht hk]
    exact parts_keeps (c.advance ht c.depth) _ _ _ (hc.trans hnext) hd
  · have hlt := Cursor.position_lt ht
    have h := block_keeps budget c ht hk
    cases hb : block limit budget c with
    | done b c' hmoved =>
      rw [hb] at h
      rw [parts_of_done ht hk hs hr hb]
      exact parts_keeps c' _ _ _ (hc.trans h.1) (h.2.trans hd)
    | exit e c' =>
      rw [hb] at h
      rw [parts_of_exit ht hk hs hr hb]
      exact hc.trans h
termination_by (ts.length - c.position, 1)

theorem block_keeps (budget : Option Nat) (c : Cursor ts) {t : Token} (ht : c.current = some t)
    (hk : t.kind = .opening) : (block limit budget c).Keeps c := by
  have hlt := Cursor.position_lt ht
  have hinside := Cursor.advance_onward_of_opening ht hk
  cases hb : spend budget with
  | none =>
    rw [block_of_spent c hb]
    exact .refl c
  | some within =>
    by_cases hd : (limit : Int) < c.depth + 1
    · rw [block_of_over ht hb hd]
      exact hinside
    · have h := pattern_keeps within (c.advance ht (c.depth + 1))
      cases hp : pattern limit within (c.advance ht (c.depth + 1)) with
      | done option c' hmoved =>
        rw [hp] at h
        have hmoved' : c.position < c'.position := Nat.lt_of_succ_lt hmoved
        rw [block_of_done ht hb hd hp]
        exact options_keeps c' _ _ (hinside.trans h.1) h.2
      | exit e c' =>
        rw [hp] at h
        rw [block_of_exit ht hb hd hp]
        exact hinside.trans h
termination_by (ts.length - c.position, 0)

theorem options_keeps {c₀ : Cursor ts} {budget : Option Nat} {start : Nat} {opening : Token}
    (c : Cursor ts) (read : List Tree) (hs : start < c.position) (hc : c₀.Onward c)
    (hd : c.depth = c₀.depth + 1) :
    (options limit budget start opening read c hs).Keeps c₀ := by
  obtain ⟨t, ht, hk⟩ | hbar := c.bar_or
  · have hlt := Cursor.position_lt ht
    have hnext := Cursor.advance_onward_of_flat ht (.inr hk)
    have h := pattern_keeps budget (c.advance ht c.depth)
    cases hp : pattern limit budget (c.advance ht c.depth) with
    | done option c' hmoved =>
      rw [hp] at h
      have hmoved' : c.position < c'.position := Nat.lt_of_succ_lt hmoved
      rw [options_of_done ht hk hs hp]
      exact options_keeps c' _ _ ((hc.trans hnext).trans h.1) (h.2.trans hd)
    | exit e c' =>
      rw [hp] at h
      rw [options_of_exit ht hk hs hp]
      exact (hc.trans hnext).trans h
  · rw [options_of_end hbar]
    exact endBlock_keeps hs hc hd
termination_by (ts.length - c.position, 3)

end

/-! ## The visits -/

/-- Where a reply leaves the registers. -/
def Reply.cursor {start : Nat} : Reply ts start → Cursor ts
  | .done _ c _ => c
  | .exit _ c => c

inductive Production where
  | pattern
  | block
deriving DecidableEq

def Production.run (limit : Nat) : Production → (c : Cursor ts) → Reply ts c.position
  | .pattern => Descent.pattern limit none
  | .block => Descent.block limit none

/-- An entry or an exit of the production that was called at `c`. -/
inductive Visit (ts : List Token) where
  | enters (p : Production) (c : Cursor ts)
  | leaves (p : Production) (c : Cursor ts)

/-- The registers at the moment of the visit. -/
def Visit.cursor (limit : Nat) : Visit ts → Cursor ts
  | .enters _ c => c
  | .leaves p c => (p.run limit c).cursor

mutual

/-- All visits from the call of a pattern to its exit, in order. -/
def patternVisits (limit : Nat) (c : Cursor ts) : List (Visit ts) :=
  .enters .pattern c :: (partsVisits limit c ++ [.leaves .pattern c])
termination_by (ts.length - c.position, 2)

def partsVisits (limit : Nat) (c : Cursor ts) : List (Visit ts) :=
  match hc : c.current with
  | none => []
  | some t =>
    have := Cursor.position_lt hc
    match t.kind with
    | .text => partsVisits limit (c.advance hc c.depth)
    | .opening =>
      blockVisits limit c ++
        match block limit none c with
        | .done _ c' _ => partsVisits limit c'
        | .exit _ _ => []
    | .bar | .closing => []
termination_by (ts.length - c.position, 1)

def blockVisits (limit : Nat) (c : Cursor ts) : List (Visit ts) :=
  let inside :=
    match hc : c.current with
    | none => []
    | some _ =>
      have := Cursor.position_lt hc
      if (limit : Int) < c.depth + 1 then []
      else
        patternVisits limit (c.advance hc (c.depth + 1)) ++
          match pattern limit none (c.advance hc (c.depth + 1)) with
          | .done _ c' h =>
            have : c.position < c'.position := Nat.lt_of_succ_lt h
            optionsVisits limit c'
          | .exit _ _ => []
  .enters .block c :: (inside ++ [.leaves .block c])
termination_by (ts.length - c.position, 0)

def optionsVisits (limit : Nat) (c : Cursor ts) : List (Visit ts) :=
  match hc : c.current with
  | none => []
  | some t =>
    have := Cursor.position_lt hc
    if t.kind = .bar then
      patternVisits limit (c.advance hc c.depth) ++
        match pattern limit none (c.advance hc c.depth) with
        | .done _ c' h =>
          have : c.position < c'.position := Nat.lt_of_succ_lt h
          optionsVisits limit c'
        | .exit _ _ => []
    else []
termination_by (ts.length - c.position, 3)

end

/-! ## What holds at each visit -/

/-- The position lies within the tokens, the current token is the one there, and the depth counts
the blocks that the tokens before it leave open. -/
structure Cursor.Sound (c : Cursor ts) : Prop where
  position_le : c.position ≤ ts.length
  current_eq : c.current = ts[c.position]?
  ended_iff : c.current = none ↔ c.position = ts.length
  depth_eq : c.depth = openings (ts.take c.position) - closings (ts.take c.position)
  depth_nonneg : 0 ≤ c.depth

theorem Cursor.sound_of_drift {c : Cursor ts} (hd : c.drift = 0) (h : 0 ≤ c.depth) : c.Sound := by
  refine ⟨c.position_le, c.current_eq, ⟨position_of_none, ?_⟩, ?_, h⟩
  · intro hp
    rw [c.current_eq]
    exact List.getElem?_eq_none (Nat.le_of_eq hp.symm)
  · rw [drift, rise] at hd
    omega

theorem Cursor.Sound.drift_eq {c : Cursor ts} (h : c.Sound) : c.drift = 0 := by
  rw [drift, rise, h.depth_eq]
  omega

theorem Cursor.Sound.onward {c c' : Cursor ts} (h : c.Sound) (hc : c.Onward c') : c'.Sound :=
  sound_of_drift (hc.drift_eq.trans h.drift_eq) (Int.le_trans h.depth_nonneg hc.depth_le)

/-- With a tree, the depth is as it was and a token has been read. -/
def Reply.Restores {start : Nat} (c : Cursor ts) : Reply ts start → Prop
  | .done _ c' _ => c'.depth = c.depth ∧ c.position < c'.position
  | .exit _ _ => True

def Visit.Sound (limit : Nat) : Visit ts → Prop
  | .enters _ c => c.Sound
  | .leaves p c => (p.run limit c).cursor.Sound ∧ (p.run limit c).Restores c

/-- Sound visits in the order of the tokens, from the position `a` up to `b`. -/
inductive Tour (limit : Nat) : Nat → List (Visit ts) → Nat → Prop where
  | nil {a b : Nat} (h : a ≤ b) : Tour limit a [] b
  | cons {a b : Nat} {v : Visit ts} {vs : List (Visit ts)} (h : a ≤ (v.cursor limit).position)
      (hv : v.Sound limit) (hvs : Tour limit (v.cursor limit).position vs b) :
      Tour limit a (v :: vs) b

namespace Tour

variable {a a' b d : Nat} {vs ws : List (Visit ts)}

theorem of_le (h : a' ≤ a) (hvs : Tour limit a vs b) : Tour limit a' vs b := by
  cases hvs with
  | nil hab => exact .nil (Nat.le_trans h hab)
  | cons hav hv hvs => exact .cons (Nat.le_trans h hav) hv hvs

theorem append (hvs : Tour limit a vs b) (hws : Tour limit b ws d) :
    Tour limit a (vs ++ ws) d := by
  induction hvs with
  | nil h => exact hws.of_le h
  | cons h hv _ ih => exact .cons h hv (ih hws)

theorem sound (hvs : Tour limit a vs b) : ∀ v ∈ vs, v.Sound limit := by
  induction hvs with
  | nil => simp
  | cons h hv _ ih =>
    intro w hw
    obtain rfl | hw := List.mem_cons.1 hw
    · exact hv
    · exact ih w hw

theorem sorted (hvs : Tour limit a vs b) :
    (a :: (vs.map (fun v => (v.cursor limit).position) ++ [b])).Pairwise (· ≤ ·) := by
  induction hvs with
  | nil h => simpa using h
  | cons h hv _ ih =>
    refine List.pairwise_cons.2 ⟨fun x hx => ?_, ih⟩
    obtain rfl | hx := List.mem_cons.1 hx
    · exact h
    · exact Nat.le_trans h ((List.pairwise_cons.1 ih).1 x hx)

end Tour

theorem Reply.Keeps.onward {start : Nat} {c : Cursor ts} {r : Reply ts start} (h : r.Keeps c) :
    c.Onward r.cursor := by
  cases r with
  | done t c' hlt => exact h.1
  | exit e c' => exact h

theorem Reply.Keeps.restores {c : Cursor ts} {r : Reply ts c.position} (h : r.Keeps c) :
    r.Restores c := by
  cases r with
  | done t c' hlt => exact ⟨h.2, hlt⟩
  | exit e c' => trivial

/-- A production makes a tour if what is inside it does. -/
theorem Production.tour {p : Production} {c : Cursor ts} {inside : List (Visit ts)} (hc : c.Sound)
    (hk : (p.run limit c).Keeps c)
    (h : Tour limit c.position inside (p.run limit c).cursor.position) :
    Tour limit c.position (.enters p c :: (inside ++ [.leaves p c]))
      (p.run limit c).cursor.position := by
  have hleaves : (Visit.leaves p c).Sound limit := ⟨hc.onward hk.onward, hk.restores⟩
  exact .cons (Nat.le_refl _) hc (h.append (.cons (Nat.le_refl _) hleaves (.nil (Nat.le_refl _))))

theorem endPattern_cursor {c : Cursor ts} {start : Nat} {read : List Tree}
    (h : read ≠ [] → start < c.position) : (c.endPattern start read h).cursor = c := by
  unfold Cursor.endPattern
  split
  · split
    · rfl
    · rfl
  · dsimp only
    split
    · rfl
    · rfl

theorem endBlock_position_le {c : Cursor ts} {start : Nat} {opening : Token} {read : List Tree}
    (h : start < c.position) :
    c.position ≤ (c.endBlock start opening read h).cursor.position := by
  unfold Cursor.endBlock
  split
  · exact Nat.le_refl _
  · split
    · split
      · exact Nat.le_succ _
      · exact Nat.le_succ _
    · exact Nat.le_refl _

-- By induction on the tokens that are left. The visits of a loop do not depend on what it has read,
-- so they are set against its reply for all starts and all parts or options.
mutual

theorem pattern_tour (c : Cursor ts) (hc : c.Sound) :
    Tour limit c.position (patternVisits limit c) (pattern limit none c).cursor.position := by
  rw [patternVisits]
  refine Production.tour (p := .pattern) hc (pattern_keeps none c) ?_
  rw [Production.run, pattern_eq_parts c rfl]
  exact parts_tour c hc _ _ _
termination_by (ts.length - c.position, 2)

theorem parts_tour {start : Nat} (c : Cursor ts) (hc : c.Sound) (read : List Tree)
    (hs : start ≤ c.position) (hr : read ≠ [] → start < c.position) :
    Tour limit c.position (partsVisits limit c)
      (parts limit none start read c hs hr).cursor.position := by
  have hstands (h : c.Stands) :
      c.position ≤ (parts limit none start read c hs hr).cursor.position := by
    have heq : (parts limit none start read c hs hr).cursor = c := by
      rw [parts_of_stands h, endPattern_cursor]
    exact Nat.le_of_eq (congrArg Cursor.position heq.symm)
  rw [partsVisits]
  split
  · rename_i hnone
    exact .nil (hstands (Cursor.stands_of_none hnone))
  · rename_i t ht
    have hlt := Cursor.position_lt ht
    split
    · rename_i hk
      have hnext := Cursor.advance_onward_of_flat ht (.inl hk)
      rw [parts_of_text ht hk]
      exact (parts_tour (c.advance ht c.depth) (hc.onward hnext) _ _ _).of_le (Nat.le_succ _)
    · rename_i hk
      have h := block_tour c hc ht hk
      have hkeeps : (block limit none c).Keeps c := block_keeps none c ht hk
      cases hb : block limit none c with
      | done b c' hmoved =>
        rw [hb] at h hkeeps
        rw [parts_of_done ht hk hs hr hb]
        exact h.append (parts_tour c' (hc.onward hkeeps.onward) _ _ _)
      | exit e c' =>
        rw [hb] at h
        rw [parts_of_exit ht hk hs hr hb]
        exact h.append (.nil (Nat.le_refl _))
    · rename_i hk
      exact .nil (hstands (Cursor.stands_of_some ht (.inl hk)))
    · rename_i hk
      exact .nil (hstands (Cursor.stands_of_some ht (.inr hk)))
termination_by (ts.length - c.position, 1)

theorem block_tour (c : Cursor ts) (hc : c.Sound) {t : Token} (ht : c.current = some t)
    (hk : t.kind = .opening) :
    Tour limit c.position (blockVisits limit c) (block limit none c).cursor.position := by
  rw [blockVisits]
  refine Production.tour (p := .block) hc (block_keeps none c ht hk) ?_
  rw [Production.run]
  split
  · rename_i hnone
    rw [ht] at hnone
    cases hnone
  · rename_i u hu
    obtain rfl : u = t := Option.some.inj (hu.symm.trans ht)
    have hlt := Cursor.position_lt ht
    have hinside := Cursor.advance_onward_of_opening ht hk
    split
    · rename_i hd
      rw [block_of_over ht rfl hd]
      exact .nil (Nat.le_succ _)
    · rename_i hd
      have h := (pattern_tour (c.advance ht (c.depth + 1)) (hc.onward hinside)).of_le
        (Nat.le_succ c.position)
      have hkeeps : (pattern limit none (c.advance ht (c.depth + 1))).Keeps _ := pattern_keeps _ _
      cases hp : pattern limit none (c.advance ht (c.depth + 1)) with
      | done option c' hmoved =>
        rw [hp] at h hkeeps
        have hmoved' : c.position < c'.position := Nat.lt_of_succ_lt hmoved
        rw [block_of_done ht rfl hd hp]
        exact h.append (options_tour c' ((hc.onward hinside).onward hkeeps.onward) _ _)
      | exit e c' =>
        rw [hp] at h
        rw [block_of_exit ht rfl hd hp]
        exact h.append (.nil (Nat.le_refl _))
termination_by (ts.length - c.position, 0)

theorem options_tour {start : Nat} {opening : Token} (c : Cursor ts) (hc : c.Sound)
    (read : List Tree) (hs : start < c.position) :
    Tour limit c.position (optionsVisits limit c)
      (options limit none start opening read c hs).cursor.position := by
  rw [optionsVisits]
  split
  · rename_i hnone
    rw [options_of_end (fun t ht => by rw [hnone] at ht; cases ht)]
    exact .nil (endBlock_position_le hs)
  · rename_i t ht
    have hlt := Cursor.position_lt ht
    split
    · rename_i hk
      have hnext := Cursor.advance_onward_of_flat ht (.inr hk)
      have h := (pattern_tour (c.advance ht c.depth) (hc.onward hnext)).of_le
        (Nat.le_succ c.position)
      have hkeeps : (pattern limit none (c.advance ht c.depth)).Keeps _ := pattern_keeps _ _
      cases hp : pattern limit none (c.advance ht c.depth) with
      | done option c' hmoved =>
        rw [hp] at h hkeeps
        have hmoved' : c.position < c'.position := Nat.lt_of_succ_lt hmoved
        rw [options_of_done ht hk hs hp]
        exact h.append (options_tour c' ((hc.onward hnext).onward hkeeps.onward) _ _)
      | exit e c' =>
        rw [hp] at h
        rw [options_of_exit ht hk hs hp]
        exact h.append (.nil (Nat.le_refl _))
    · rename_i hk
      rw [options_of_end (fun u hu => by rw [ht] at hu; cases hu; exact hk)]
      exact .nil (endBlock_position_le hs)
termination_by (ts.length - c.position, 3)

end

/-! ## Any number of calls -/

/-- Where a parser starts. -/
def Cursor.start (ts : List Token) : Cursor ts :=
  ⟨0, ts[0]?, 0, rfl, Nat.zero_le _⟩

/-- Where so many calls on one parser have come to, each going on where the one before has
stopped. -/
def Cursor.after (limit : Nat) (ts : List Token) (calls : Nat) : Cursor ts :=
  (fun c => (parse limit none c).2)^[calls] (Cursor.start ts)

theorem Cursor.after_succ (limit : Nat) (ts : List Token) (n : Nat) :
    Cursor.after limit ts (n + 1) = (parse limit none (Cursor.after limit ts n)).2 :=
  Function.iterate_succ_apply' _ n _

/-- All visits of so many calls. -/
def journal (limit : Nat) (ts : List Token) : Nat → List (Visit ts)
  | 0 => []
  | n + 1 => journal limit ts n ++ patternVisits limit (Cursor.after limit ts n)

/-- What is left to check after the pattern moves nothing. -/
theorem parse_cursor (budget : Option Nat) (c : Cursor ts) :
    (parse limit budget c).2 = (pattern limit budget c).cursor := by
  unfold parse
  split
  · rename_i hp
    rw [hp]
    rfl
  · rename_i hp
    rw [hp]
    split
    · rfl
    · rfl

theorem start_sound (ts : List Token) : (Cursor.start ts).Sound :=
  Cursor.sound_of_drift rfl (Int.le_refl 0)

theorem after_sound (limit : Nat) (ts : List Token) (n : Nat) :
    (Cursor.after limit ts n).Sound := by
  induction n with
  | zero => exact start_sound ts
  | succ n ih =>
    rw [Cursor.after_succ, parse_cursor]
    exact ih.onward (pattern_keeps none _).onward

theorem journal_tour (limit : Nat) (ts : List Token) (n : Nat) :
    Tour limit 0 (journal limit ts n) (Cursor.after limit ts n).position := by
  induction n with
  | zero => exact .nil (Nat.le_refl 0)
  | succ n ih =>
    rw [Cursor.after_succ, parse_cursor]
    exact ih.append (pattern_tour _ (after_sound limit ts n))

/-- The cursor stands where the parser stands. -/
structure Cursor.At (c : Cursor ts) (p : Parser) : Prop where
  tokens_eq : p.tokens = ts
  position_eq : c.position = p.position
  depth_eq : c.depth = p.depth

/-- The two productions from a cursor are a call on the parser that stands there. -/
theorem Cursor.At.parse {c : Cursor ts} {p : Parser} (h : c.At p) :
    (Descent.parse p.limit none c).1 = p.parse.1.mapError .fault ∧
      (Descent.parse p.limit none c).2.At p.parse.2 := by
  obtain ⟨rfl, hposition, hdepth⟩ := h
  have hle : p.position ≤ p.tokens.length := hposition ▸ c.position_le
  obtain rfl : c = .ofParser p hle := by
    obtain ⟨position, current, depth, hcurrent, hposition_le⟩ := c
    obtain rfl : position = p.position := hposition
    obtain rfl : depth = p.depth := hdepth
    subst hcurrent
    rfl
  obtain ⟨hresult, hposition, hdepth⟩ := descent_parse p hle
  exact ⟨hresult, parse_tokens p, hposition, hdepth⟩

theorem after_at (limit : Nat) (file : Option String) (ts : List Token) (n : Nat) :
    (Cursor.after limit ts n).At ((fresh limit file ts).after n) := by
  induction n with
  | zero => exact ⟨rfl, rfl, rfl⟩
  | succ n ih =>
    have hlimit : ((fresh limit file ts).after n).limit = limit :=
      ((fresh limit file ts).after_kept n).2.2
    have h := ih.parse.2
    rw [hlimit] at h
    rw [Cursor.after_succ, Parser.after_succ]
    exact h

/-- The registers of a parser, after any number of calls and at every visit of a production in them.
They are those of the parser that has been called so often, and a further call comes to what the two
productions come to. Position, token and depth are those of the tokens read; with a tree a
production has read a token and left the depth as it was; from visit to visit, and from call to
call, the position never moves back. -/
theorem registers_sound (limit : Nat) (file : Option String) (tokens : List Token) (n : Nat) :
    let p := (fresh limit file tokens).after n
    let c := Cursor.after limit tokens n
    (c.position = p.position ∧ c.depth = p.depth ∧
      (Descent.parse limit none c).1 = p.parse.1.mapError .fault) ∧
    c.Sound ∧
    (∀ v ∈ journal limit tokens n, v.Sound limit) ∧
    ((journal limit tokens n).map (fun v => (v.cursor limit).position) ++
      [c.position]).Pairwise (· ≤ ·) := by
  intro p c
  have hat : c.At p := after_at limit file tokens n
  have hlimit : p.limit = limit := ((fresh limit file tokens).after_kept n).2.2
  have hresult := hat.parse.1
  rw [hlimit] at hresult
  have htour := journal_tour limit tokens n
  exact ⟨⟨hat.position_eq, hat.depth_eq, hresult⟩, after_sound limit tokens n, htour.sound,
    (List.pairwise_cons.1 htour.sorted).2⟩

/-- Two blocks where one may be open. The first call leaves all productions behind the second brace,
and the second call goes on from there, two blocks deep. -/
theorem registers_sound_too_deep :
    let token (kind : Token.Kind) (value : String) : Token := ⟨kind, value, .unknown⟩
    let tokens := [token .opening "\x7b", token .opening "\x7b", token .text "a",
      token .closing "\x7d"]
    let c := Cursor.after 1 tokens 2
    (journal 1 tokens 1).map (fun v => (v.cursor 1).position) = [0, 0, 1, 1, 2, 2, 2, 2] ∧
      c.position = 3 ∧ c.depth = 2 ∧ c.current = some (token .closing "\x7d") ∧
      (Descent.parse 1 none c).1 = .error (.fault ⟨.emptyOption "\x7d", some 3⟩) ∧
      c.depth = openings (tokens.take 3) - closings (tokens.take 3) := by
  intro token tokens c
  obtain ⟨⟨hposition, hdepth, hresult⟩, hsound, -, -⟩ := registers_sound 1 none tokens 2
  have hvisits : journal 1 tokens 1 = patternVisits 1 (Cursor.start tokens) := rfl
  have hthree : c.position = 3 := hposition
  have hcurrent := hsound.current_eq
  have hbalance := hsound.depth_eq
  rw [hthree] at hcurrent hbalance
  refine ⟨?_, hthree, hdepth, hcurrent, hresult, hbalance⟩
  rw [hvisits]
  simp [tokens, token, patternVisits, partsVisits, blockVisits, Visit.cursor, Production.run,
    pattern, parts, block, spend, Cursor.start, Cursor.advance, Reply.cursor]

end Descent
end Spintax
