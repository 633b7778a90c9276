/-!
# Doubles as exact numbers

A finite double is `± m · 2^e` with a natural number `m` below `2^53`.  The
decimal texts of a double are computed from `m` and `e` in exact arithmetic.
-/

namespace Referents.Decimal

/-- The magnitude `mantissa · 2 ^ exponent` of a finite double. -/
structure Binary where
  mantissa : Nat
  exponent : Int
  /-- Whether the double below is only half as far away as the one above. -/
  narrowBelow : Bool
deriving DecidableEq

/-- What a double stands for. -/
inductive Double where
  | nan
  | infinite (negative : Bool)
  | finite (negative : Bool) (magnitude : Binary)
deriving DecidableEq

/-- What the double with these 64 bits stands for. -/
def Double.ofBits (bits : UInt64) : Double :=
  let negative : Bool := bits.toNat / 0x8000000000000000 = 1
  let biased : Nat := bits.toNat / 0x10000000000000 % 2048
  let fraction : Nat := bits.toNat % 0x10000000000000
  if biased = 2047 then
    if fraction = 0 then .infinite negative else .nan
  else if biased = 0 then .finite negative ⟨fraction, -1074, false⟩
  else .finite negative
    ⟨0x10000000000000 + fraction, (biased : Int) - 1075, fraction = 0 && 1 < biased⟩

/-- What a double stands for. -/
def Double.of (x : Float) : Double := .ofBits x.toBits

/-- A magnitude as a fraction of two natural numbers. -/
def Binary.fraction (b : Binary) : Nat × Nat :=
  if 0 ≤ b.exponent then (b.mantissa * Nat.pow 2 b.exponent.toNat, 1)
  else (b.mantissa, Nat.pow 2 (-b.exponent).toNat)

/-- The natural number nearest to `num / den`; a half goes to the even neighbour. -/
def roundHalfEven (num den : Nat) : Nat :=
  let q := num / den
  let r := num % den
  if 2 * r < den then q
  else if den < 2 * r then q + 1
  else if q % 2 = 0 then q else q + 1

/-- A half goes to the even neighbour. -/
theorem roundHalfEven_tie {q r : Nat} (hr : 0 < r) :
    roundHalfEven (2 * r * q + r) (2 * r) = if q % 2 = 0 then q else q + 1 := by
  have hd : (2 * r * q + r) / (2 * r) = q := by
    rw [Nat.mul_add_div (by omega)]
    rw [Nat.div_eq_of_lt (by omega)]
    omega
  have hm : (2 * r * q + r) % (2 * r) = r := by
    rw [Nat.mul_add_mod]
    exact Nat.mod_eq_of_lt (by omega)
  simp [roundHalfEven, hd, hm]

end Referents.Decimal
