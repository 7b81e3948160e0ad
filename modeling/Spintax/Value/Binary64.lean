/-!
# Spintax.Value.Binary64

Binary floating-point numbers of 64 bits. A finite one is a whole number of units of
`2 ^ -1074`, with at most 53 binary digits that are not trailing zeros.

* `Binary64`: finite and infinite numbers.
* `Binary64.ofDecimal`: the number nearest to a decimal.
* `Binary64.Amount`, `Binary64.amount`: what a number is equal to.
* `Binary64.shortest`: the decimal with the fewest digits that is read as a number, and
  `Binary64.round_shortest`, that it is read so.
* `Binary64.describe`: the form shown to readers.
-/

namespace Spintax

/-- A floating-point number. Zero has a sign too. -/
inductive Binary64 where
  | finite (negative : Bool) (units : Nat)
  | infinite (negative : Bool)
deriving DecidableEq

namespace Binary64

/-- The binary places after the point. -/
def scale : Nat := 1074

/-- The units in 1. -/
def one : Nat := Nat.pow 2 scale

/-- The units in the least number that is too large to be finite. -/
def bound : Nat := Nat.pow 2 (scale + 1024)

/-- The whole number nearest to `num / den`. Of two, it is the even one. -/
def nearest (num den : Nat) : Nat :=
  let low := num / den
  match compare (2 * (num % den)) den with
  | .lt => low
  | .eq => low + low % 2
  | .gt => low + 1

theorem nearest_mul (n : Nat) {den : Nat} (h : 0 < den) : nearest (n * den) den = n := by
  have hc : compare 0 den = .lt := Nat.compare_eq_lt.2 h
  simp [nearest, Nat.mul_div_cancel n h, hc]

/-- How far a number of units is from the next larger one with 53 binary digits. -/
def step (units : Nat) : Nat :=
  Nat.pow 2 (units.log2 - 52)

/-- The units of the number nearest to `num / den` units, were there no bound. -/
def round (num den : Nat) : Nat :=
  let s := step (num / den)
  nearest num (den * s) * s

/-- A number that has 53 binary digits is not changed. -/
theorem round_mul {n den : Nat} (h : 0 < den) (hn : step n ∣ n) : round (n * den) den = n := by
  obtain ⟨m, hm⟩ := hn
  have hs : 0 < step n := Nat.pow_pos (by decide)
  have hm' : n * den = m * (den * step n) := by
    rw [Nat.mul_left_comm, Nat.mul_comm n den, Nat.mul_comm m, ← hm]
  unfold round
  rw [Nat.mul_div_cancel n h]
  show nearest (n * den) (den * step n) * step n = n
  rw [hm', nearest_mul m (Nat.mul_pos h hs), Nat.mul_comm, ← hm]

/-- The same for `digits * 10 ^ power`. -/
def roundDecimal (digits : Nat) (power : Int) : Nat :=
  round (digits * Nat.pow 10 power.toNat * one) (Nat.pow 10 (-power).toNat)

/-- The number nearest to `digits * 10 ^ power`. What is below `10 ^ -324` is less than half a
unit, and what is not below `10 ^ 309` is too large, whatever the digits are. -/
def ofDecimal (negative : Bool) (digits : Nat) (power : Int) : Binary64 :=
  let places := power + (Nat.toDigits 10 digits).length
  if digits = 0 ∨ places ≤ -324 then .finite negative 0
  else if 310 ≤ places then .infinite negative
  else
    let units := roundDecimal digits power
    if units < bound then .finite negative units else .infinite negative

/-- What a number is equal to: so many units, or infinity. -/
inductive Amount where
  | finite (units : Int)
  | infinite (negative : Bool)
deriving DecidableEq

/-- The amount of a whole number. -/
def Amount.ofInt (n : Int) : Amount :=
  .finite (n * one)

/-- The amount of a number. The sign of zero does not count. -/
def amount : Binary64 → Amount
  | .finite negative units => .finite (if negative then -units else units)
  | .infinite negative => .infinite negative

/-- The multiple of `10 ^ power` that is read as so many units, by its digits. Of the multiples
around the number, the nearer one is preferred, and then the even one. -/
def multiple? (units : Nat) (power : Int) : Option Nat :=
  let num := units * Nat.pow 10 (-power).toNat
  let den := Nat.pow 10 power.toNat * one
  let near := nearest num den
  let far := 2 * (num / den) + 1 - near
  [near, far].find? (roundDecimal · power = units)

/-- The decimal with the fewest digits that is read as so many units, by its digits and the power
of ten they count. It is looked for from powers above the number down to `10 ^ -324`; every number
is a decimal itself, should none be found. -/
def shortest (units : Nat) : Nat × Int :=
  if units = 0 then (0, 0)
  else
    let places := (Nat.toDigits 10 units).length
    let found := (List.range (places + 2)).findSome? fun (i : Nat) =>
      let power : Int := places - 323 - i
      (multiple? units power).map (·, power)
    found.getD (units * Nat.pow 5 scale, -scale)

theorem roundDecimal_multiple? {units digits : Nat} {power : Int}
    (h : multiple? units power = some digits) : roundDecimal digits power = units := by
  simpa using List.find?_some h

theorem ten_pow_pos (n : Nat) : 0 < Nat.pow 10 n :=
  Nat.pow_pos (by decide)

theorem five_pow_mul_two_pow (n : Nat) : Nat.pow 5 n * Nat.pow 2 n = Nat.pow 10 n :=
  (Nat.mul_pow 5 2 n).symm

theorem roundDecimal_neg (digits n : Nat) :
    roundDecimal digits (-n) = round (digits * one) (Nat.pow 10 n) := by
  simp [roundDecimal]

/-- A number is a decimal itself. -/
theorem roundDecimal_exact {units : Nat} (h : step units ∣ units) :
    roundDecimal (units * Nat.pow 5 scale) (-scale) = units := by
  rw [roundDecimal_neg]
  unfold one
  generalize scale = n
  rw [Nat.mul_assoc, five_pow_mul_two_pow]
  exact round_mul (ten_pow_pos n) h

/-- The shortest decimal of a number is read as that number. -/
theorem round_shortest {units : Nat} (h : step units ∣ units) :
    roundDecimal (shortest units).1 (shortest units).2 = units := by
  unfold shortest
  split
  · subst units
    simpa [roundDecimal] using round_mul (show 0 < 1 by decide) h
  · simp only
    generalize hf : List.findSome? _ _ = found
    cases found with
    | none => exact roundDecimal_exact h
    | some d =>
      obtain ⟨i, -, hi⟩ := List.exists_of_findSome?_eq_some hf
      obtain ⟨digits, hd, rfl⟩ := Option.map_eq_some_iff.1 hi
      exact roundDecimal_multiple? hd

/-- Digits of which the first counts `10 ^ lead`: with a point where it belongs for leads from -4
to 15, and otherwise with the point behind the first digit and the lead after it. -/
def layOut (digits : List Char) (lead : Int) : List Char :=
  let zeros (n : Nat) := List.replicate n '0'
  if -4 ≤ lead ∧ lead < 0 then
    ['0', '.'] ++ zeros (-lead - 1).toNat ++ digits
  else if 0 ≤ lead ∧ lead < 16 then
    let whole := lead.toNat + 1
    let part := digits.drop whole
    digits.take whole ++ zeros (whole - digits.length) ++ ['.']
      ++ (if part.isEmpty then ['0'] else part)
  else
    let part := digits.drop 1
    let magnitude := Nat.toDigits 10 lead.natAbs
    digits.take 1 ++ (if part.isEmpty then [] else '.' :: part)
      ++ ['e', if lead < 0 then '-' else '+'] ++ zeros (2 - magnitude.length) ++ magnitude

def describe (x : Binary64) : String :=
  let (negative, magnitude) := match x with
    | .infinite negative => (negative, "inf")
    | .finite negative units =>
      let (n, power) := shortest units
      let digits := Nat.toDigits 10 n
      (negative, String.ofList (layOut digits (power + digits.length - 1)))
  if negative then "-" ++ magnitude else magnitude

end Binary64
end Spintax
