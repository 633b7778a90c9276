import Referents.Decimal.Binary

/-!
# The shortest decimal that reads back

Of all decimals that are nearer to a double than to any other, `shortest`
finds the one with the fewest digits, and of those the nearest to the double.

For a given number of digits the decimals of the double's size form a grid,
and if any of its points reads back as the double, so does one of the two
points next to the double.  The grids are tried from the coarsest on.
-/

namespace Referents.Decimal

/-- The number `digits · 10 ^ exponent`. -/
structure Scaled where
  digits : Nat
  exponent : Int
deriving DecidableEq

/-- How many digits a natural number has. -/
def digitCount (n : Nat) : Nat := (Nat.toDigits 10 n).length

/-- The exponent of the first digit of the positive number `num / den`, which
is at least `10 ^ -400`. -/
def leadingExponent (num den : Nat) : Int :=
  (digitCount (num * Nat.pow 10 400 / den) : Int) - 401

/-- The interval of the numbers that read back as a double: four times its
ends and four times the double, over a common denominator, and whether the
ends belong to it. -/
structure Interval where
  low : Nat
  mid : Nat
  high : Nat
  den : Nat
  closed : Bool

/-- The interval of a magnitude. -/
def Binary.interval (b : Binary) : Interval :=
  let (scale, den) :=
    if 0 ≤ b.exponent then (Nat.pow 2 b.exponent.toNat, 4)
    else (1, 4 * Nat.pow 2 (-b.exponent).toNat)
  { low := (4 * b.mantissa - if b.narrowBelow then 1 else 2) * scale
    mid := 4 * b.mantissa * scale
    high := (4 * b.mantissa + 2) * scale
    den := den
    closed := b.mantissa % 2 = 0 }

/-- Whether `digits · num / den` lies in the interval. -/
def Interval.contains (i : Interval) (digits num den : Nat) : Bool :=
  let x := digits * num * i.den
  if i.closed then i.low * den ≤ x && x ≤ i.high * den
  else i.low * den < x && x < i.high * den

/-- The point of the grid of step `10 ^ exponent` that reads back, if there is
one; of two the nearer, and of two equally near the even one. -/
def Interval.onGrid (i : Interval) (exponent : Int) : Option Scaled :=
  let (num, den) :=
    if 0 ≤ exponent then (Nat.pow 10 exponent.toNat, 1)
    else (1, Nat.pow 10 (-exponent).toNat)
  let below := i.mid * den / (i.den * num)
  let nearest := roundHalfEven (i.mid * den) (i.den * num)
  let other := if nearest = below then below + 1 else below
  if i.contains nearest num den then some ⟨nearest, exponent⟩
  else if i.contains other num den then some ⟨other, exponent⟩
  else none

/-- The grids from `count` digits on, `fuel` of them. -/
def Interval.search (i : Interval) (leading : Int) : Nat → Nat → Option Scaled
  | 0, _ => none
  | fuel + 1, count =>
      match i.onGrid (leading - count + 1) with
      | some d => some d
      | none => i.search leading fuel (count + 1)

/-- Takes zeros off the end of the digits, `fuel` of them at most. -/
def Scaled.trim : Nat → Scaled → Scaled
  | 0, d => d
  | fuel + 1, d =>
      if d.digits ≠ 0 ∧ d.digits % 10 = 0 then Scaled.trim fuel ⟨d.digits / 10, d.exponent + 1⟩
      else d

/-- The shortest decimal that reads back as a magnitude; seventeen digits are always enough. -/
def Binary.shortest (b : Binary) : Scaled :=
  if b.mantissa = 0 then ⟨0, 0⟩
  else
    let i := b.interval
    let leading := leadingExponent i.mid i.den
    ((i.search leading 17 1).getD ⟨i.mid / i.den, 0⟩).trim 400

end Referents.Decimal
