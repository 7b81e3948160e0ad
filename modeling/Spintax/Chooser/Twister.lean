/-!
# Spintax.Chooser.Twister

The Mersenne Twister with 624 words of 32 bits, seeded by an integer, and uniform numbers below a
bound by rejection.

* `Twister.ofSeed`: the generator of a seed. A seed and its negative are the same.
* `Twister.next`: the next word.
* `Twister.below`: the next number below a bound.
-/

namespace Spintax

abbrev Twister.size : Nat := 624

abbrev Twister.Words : Type := Vector UInt32 Twister.size

/-- A state, and how many of its words have been given out. -/
structure Twister where
  words : Twister.Words
  used : Nat

namespace Twister

/-- A word with its upper bits mixed into the lower ones. -/
def mixed (w : UInt32) : UInt32 :=
  w ^^^ (w >>> 30)

/-- The words that follow from one word. -/
def spread (w : UInt32) : Words :=
  Nat.fold size
    (fun i _ v =>
      if i = 0 then v
      else v.set i (1812433253 * mixed v[i - 1] + i.toUInt32))
    (Vector.replicate size w)

/-- Changes word `k % 623 + 1` with the help of the one before it. The first word follows the
last. -/
def churn (f : (i : Nat) → (word before : UInt32) → UInt32) (k : Nat) (v : Words) : Words :=
  let i := k % (size - 1) + 1
  have hi : i < size := by
    have := Nat.mod_lt k (show 0 < size - 1 by decide)
    omega
  let w := f i v[i] (mixed v[i - 1])
  let v := v.set i w
  if i = size - 1 then v.set 0 w else v

/-- The 32-bit digits of `n`, the lowest first; one digit for 0. -/
def key (n : Nat) : List UInt32 :=
  if n < UInt32.size then [n.toUInt32] else n.toUInt32 :: key (n / UInt32.size)
termination_by n
decreasing_by
  simp only [UInt32.size] at *
  omega

/-- The generator of a seed: every digit of the key is worked into the state, then the state is
churned once more. -/
def ofSeed (seed : Int) : Twister :=
  let digits := (key seed.natAbs).toArray
  let rounds := max size digits.size
  let v := Nat.fold rounds
    (fun k _ v =>
      let j := k % digits.size
      churn (fun _ word before => (word ^^^ (before * 1664525)) + digits.getD j 0 + j.toUInt32) k v)
    (spread 19650218)
  let v := Nat.fold (size - 1)
    (fun k _ v =>
      churn (fun i word before => (word ^^^ (before * 1566083941)) - i.toUInt32) (rounds + k) v)
    v
  ⟨v.set 0 0x80000000, size⟩

/-- The next state: the top bit of each word and the other bits of the next one, shifted through
the feedback polynomial. -/
def twist (v : Words) : Words :=
  Nat.fold size
    (fun i _ v =>
      have h₁ : (i + 1) % size < size := Nat.mod_lt _ (by decide)
      have h₂ : (i + 397) % size < size := Nat.mod_lt _ (by decide)
      let y := (v[i] &&& 0x80000000) ||| (v[(i + 1) % size] &&& 0x7fffffff)
      let feedback : UInt32 := if y &&& 1 = 1 then 0x9908b0df else 0
      v.set i (v[(i + 397) % size] ^^^ (y >>> 1) ^^^ feedback))
    v

def temper (w : UInt32) : UInt32 :=
  let w := w ^^^ (w >>> 11)
  let w := w ^^^ ((w <<< 7) &&& 0x9d2c5680)
  let w := w ^^^ ((w <<< 15) &&& 0xefc60000)
  w ^^^ (w >>> 18)

def next (t : Twister) : UInt32 × Twister :=
  let t := if t.used < size then t else ⟨twist t.words, 0⟩
  (temper (t.words.toArray.getD t.used 0), { t with used := t.used + 1 })

/-- The number made of the next `whole` words, the lowest first, and the upper `bits` bits of the
word after them. -/
def number (bits : Nat) : (whole : Nat) → Twister → Nat × Twister
  | 0, t =>
    let (w, t) := t.next
    (w.toNat >>> (32 - bits), t)
  | whole + 1, t =>
    let (w, t) := t.next
    let (upper, t) := number bits whole t
    (w.toNat + UInt32.size * upper, t)

/-- The first of the next `tries` numbers with as many bits as `stop` that is below `stop`. -/
def firstBelow (stop : Nat) : (tries : Nat) → Twister → Nat × Twister
  | 0, t => (0, t)
  | tries + 1, t =>
    let (n, t) := number (stop.log2 % 32 + 1) (stop.log2 / 32) t
    if n < stop then (n, t) else firstBelow stop tries t

/-- More numbers than can be refused in a row. A refused number starts with the bit 1, and the
first bits of words equally far apart satisfy a linear recurrence of order 19937 in which so long
a run of ones does not occur. -/
def tries : Nat := 19938

/-- The next number below `stop`, which must be positive. -/
def below (t : Twister) (stop : Nat) : Nat × Twister :=
  firstBelow stop tries t

theorem firstBelow_lt {stop : Nat} (h : 0 < stop) (tries : Nat) (t : Twister) :
    (firstBelow stop tries t).1 < stop := by
  induction tries generalizing t with
  | zero => exact h
  | succ n ih =>
    simp only [firstBelow]
    split
    · assumption
    · exact ih _

theorem below_lt {stop : Nat} (h : 0 < stop) (t : Twister) : (t.below stop).1 < stop :=
  firstBelow_lt h _ t

end Twister
end Spintax
