import Spintax.Proofs.DescentFrames

/-!
# Spintax.Proofs.DescentCases

The productions, case by case: what a loop or a block does where the current token and the reply of
the production inside are known. A property of all productions is proved along these cases, without
the terms that say why they end.

* `Cursor.stands_or`: the cases of the loop in a pattern.
* `pattern_of_spent`, `block_of_spent`: no further production may be active.
* `parts_of_...`, `block_of_...`, `options_of_...`: the other cases.
-/

namespace Spintax
namespace Descent

variable {ts : List Token} {limit start : Nat} {budget within : Option Nat} {opening t : Token}
  {b option : Tree} {read : List Tree} {e : Exit} {c c' : Cursor ts}

theorem Cursor.stands_or (c : Cursor ts) :
    c.Stands ∨ (∃ t, c.current = some t ∧ t.kind = .text) ∨
      ∃ t, c.current = some t ∧ t.kind = .opening := by
  cases hc : c.current with
  | none => exact .inl (stands_of_none hc)
  | some t =>
    cases hk : t.kind with
    | text => exact .inr (.inl ⟨t, rfl, hk⟩)
    | opening => exact .inr (.inr ⟨t, rfl, hk⟩)
    | bar => exact .inl (stands_of_some hc (.inl hk))
    | closing => exact .inl (stands_of_some hc (.inr hk))

theorem Cursor.bar_or (c : Cursor ts) :
    (∃ t, c.current = some t ∧ t.kind = .bar) ∨ ∀ t, c.current = some t → t.kind ≠ .bar := by
  by_cases h : ∃ t, c.current = some t ∧ t.kind = .bar
  · exact .inl h
  · exact .inr fun t ht hk => h ⟨t, ht, hk⟩

/-! ## A pattern -/

theorem pattern_of_spent (c : Cursor ts) (hb : spend budget = none) :
    pattern limit budget c = .exit .exhausted c := by
  rw [pattern]
  simp only [hb]

theorem pattern_eq_parts (c : Cursor ts) (hb : spend budget = some within) :
    pattern limit budget c =
      parts limit within c.position [] c (Nat.le_refl _) (fun h => absurd rfl h) := by
  rw [pattern]
  simp only [hb]

theorem parts_of_stands (h : c.Stands) (hs : start ≤ c.position)
    (hr : read ≠ [] → start < c.position) :
    parts limit budget start read c hs hr = c.endPattern start read hr := by
  rw [parts]
  split
  · rfl
  · rename_i t ht
    obtain hk | hk := h t ht
    · simp only [hk]
    · simp only [hk]

theorem parts_of_text (ht : c.current = some t) (hk : t.kind = .text) (hs : start ≤ c.position)
    (hr : read ≠ [] → start < c.position) :
    parts limit budget start read c hs hr =
      parts limit budget start (.text t.value t.location :: read) (c.advance ht c.depth)
        (Nat.le_succ_of_le hs) (fun _ => Nat.lt_succ_of_le hs) := by
  obtain ⟨position, current, depth, hcurrent, hle⟩ := c
  obtain rfl : current = some t := ht
  rw [parts]
  simp only [hk]

theorem parts_of_done (ht : c.current = some t) (hk : t.kind = .opening) (hs : start ≤ c.position)
    (hr : read ≠ [] → start < c.position) {h : c.position < c'.position}
    (hb : block limit budget c = .done b c' h) :
    parts limit budget start read c hs hr =
      parts limit budget start (b :: read) c' (Nat.le_of_lt (Nat.lt_of_le_of_lt hs h))
        (fun _ => Nat.lt_of_le_of_lt hs h) := by
  obtain ⟨position, current, depth, hcurrent, hle⟩ := c
  obtain rfl : current = some t := ht
  rw [parts]
  simp only [hk, hb]

theorem parts_of_exit (ht : c.current = some t) (hk : t.kind = .opening) (hs : start ≤ c.position)
    (hr : read ≠ [] → start < c.position) (hb : block limit budget c = .exit e c') :
    parts limit budget start read c hs hr = .exit e c' := by
  obtain ⟨position, current, depth, hcurrent, hle⟩ := c
  obtain rfl : current = some t := ht
  rw [parts]
  simp only [hk, hb]

/-! ## A block -/

theorem block_of_spent (c : Cursor ts) (hb : spend budget = none) :
    block limit budget c = .exit .exhausted c := by
  rw [block]
  simp only [hb]

theorem block_of_over (ht : c.current = some t) (hb : spend budget = some within)
    (hd : (limit : Int) < c.depth + 1) :
    block limit budget c =
      .exit (.fault ⟨.tooDeep limit, some c.position⟩) (c.advance ht (c.depth + 1)) := by
  obtain ⟨position, current, depth, hcurrent, hle⟩ := c
  obtain rfl : current = some t := ht
  rw [block]
  simp only [hb]
  rw [if_pos hd]

theorem block_of_done (ht : c.current = some t) (hb : spend budget = some within)
    (hd : ¬ (limit : Int) < c.depth + 1)
    {h : (c.advance ht (c.depth + 1)).position < c'.position}
    (hp : pattern limit within (c.advance ht (c.depth + 1)) = .done option c' h) :
    block limit budget c =
      options limit within c.position t [option] c' (Nat.lt_of_succ_lt h) := by
  obtain ⟨position, current, depth, hcurrent, hle⟩ := c
  obtain rfl : current = some t := ht
  rw [block]
  simp only [hb]
  rw [if_neg hd]
  simp only [hp]

theorem block_of_exit (ht : c.current = some t) (hb : spend budget = some within)
    (hd : ¬ (limit : Int) < c.depth + 1)
    (hp : pattern limit within (c.advance ht (c.depth + 1)) = .exit e c') :
    block limit budget c = .exit e c' := by
  obtain ⟨position, current, depth, hcurrent, hle⟩ := c
  obtain rfl : current = some t := ht
  rw [block]
  simp only [hb]
  rw [if_neg hd]
  simp only [hp]

theorem options_of_end (h : ∀ t, c.current = some t → t.kind ≠ .bar) (hs : start < c.position) :
    options limit budget start opening read c hs = c.endBlock start opening read hs := by
  rw [options]
  split
  · rfl
  · rename_i t ht
    rw [if_neg (h t ht)]

theorem options_of_done (ht : c.current = some t) (hk : t.kind = .bar) (hs : start < c.position)
    {h : (c.advance ht c.depth).position < c'.position}
    (hp : pattern limit budget (c.advance ht c.depth) = .done option c' h) :
    options limit budget start opening read c hs =
      options limit budget start opening (option :: read) c'
        (Nat.lt_trans hs (Nat.lt_of_succ_lt h)) := by
  obtain ⟨position, current, depth, hcurrent, hle⟩ := c
  obtain rfl : current = some t := ht
  rw [options]
  simp only [hk, hp, if_true]

theorem options_of_exit (ht : c.current = some t) (hk : t.kind = .bar) (hs : start < c.position)
    (hp : pattern limit budget (c.advance ht c.depth) = .exit e c') :
    options limit budget start opening read c hs = .exit e c' := by
  obtain ⟨position, current, depth, hcurrent, hle⟩ := c
  obtain rfl : current = some t := ht
  rw [options]
  simp only [hk, hp, if_true]

end Descent
end Spintax
