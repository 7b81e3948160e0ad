/-!
# Spintax.Pick

Picking from a list by a number that counts from either end: 0 is the first element, -1 the last.

* `pick?`: the element, if the number is in range.
* `pick?_isSome_iff`: the range, from `-n` to `n - 1` for `n` elements.
* `missMessage`: what is said of a number out of range.
-/

namespace Spintax

/-- The element of `xs` that `i` picks. -/
def pick? {α : Type} (xs : List α) (i : Int) : Option α :=
  if 0 ≤ i then xs[i.toNat]?
  else if -(xs.length : Int) ≤ i then xs[(xs.length + i).toNat]?
  else none

theorem pick?_natCast {α : Type} (xs : List α) (n : Nat) : pick? xs n = xs[n]? := by
  simp [pick?]

theorem pick?_isSome_iff {α : Type} (xs : List α) (i : Int) :
    (pick? xs i).isSome ↔ -(xs.length : Int) ≤ i ∧ i < xs.length := by
  unfold pick?
  split
  · simp; omega
  · split
    · simp; omega
    · simp; omega

theorem mem_of_pick? {α : Type} {xs : List α} {i : Int} {x : α} (h : pick? xs i = some x) :
    x ∈ xs := by
  unfold pick? at h
  split at h
  · exact List.mem_of_getElem? h
  · split at h
    · exact List.mem_of_getElem? h
    · cases h

/-- What is said of a number that picks nothing. One that does not fit into 64 bits is not even
looked up. -/
def missMessage (i : Int) : String :=
  if -Int.pow 2 63 ≤ i ∧ i < Int.pow 2 63 then "tuple index out of range"
  else "cannot fit 'int' into an index-sized integer"

end Spintax
