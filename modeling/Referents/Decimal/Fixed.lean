import Referents.Decimal.Binary

/-!
# Decimals with a fixed number of places

The exact value of a double is rounded to the given number of places, a half
to the even neighbour, and written with a sign if its sign bit is set.
-/

namespace Referents.Decimal

/-- The digits of `n`, filled up with zeros in front to `width` of them. -/
def padded (width n : Nat) : String :=
  let digits := toString n
  String.ofList (List.replicate (width - digits.length) '0') ++ digits

/-- The text of a magnitude with `places` digits after the point. -/
def Binary.fixed (places : Nat) (b : Binary) : String :=
  let (num, den) := b.fraction
  let units := roundHalfEven (num * Nat.pow 10 places) den
  let whole := toString (units / Nat.pow 10 places)
  if places = 0 then whole
  else s!"{whole}.{padded places (units % Nat.pow 10 places)}"

/-- The text of a double with `places` digits after the point. -/
def fixed (places : Nat) (x : Float) : String :=
  match Double.of x with
  | .nan => "NaN"
  | .infinite negative => if negative then "-inf" else "inf"
  | .finite negative b => (if negative then "-" else "") ++ b.fixed places

end Referents.Decimal
