import Referents.Fault

/-!
# Machine integers

Counts are 64 bits wide and clock readings are signed 64-bit numbers.  Both
are kept as unbounded integers; the three ways in which an operation can leave
its range are spelled out here: **checked** operations fail, **wrapping** ones
reduce modulo `2^64`, and **saturating** ones stop at the end of the range.
-/

namespace Referents

/-- One more than the largest count. -/
def countLimit : Nat := 0x10000000000000000

/-- A counter that wraps around. -/
def wrapCount (n : Nat) : Nat := n % countLimit

/-- The sum of two counts, which has to be a count. -/
def addCounts (a b : Nat) : Except Fault Nat :=
  if a + b < countLimit then .ok (a + b) else .error (.crash .addOverflow)

/-- The sum of a list of counts, every partial sum of which has to be a count. -/
def sumCounts (ns : List Nat) : Except Fault Nat :=
  ns.foldlM addCounts 0

/-- Fails unless there can be room for `count` items of `size` bytes each. -/
def reserve (count size : Nat) : Except Fault Unit :=
  if count * size < 0x8000000000000000 then .ok () else .error (.crash .capacityOverflow)

/-- Whether `i` is a signed 64-bit number. -/
def isClockReading (i : Int) : Bool := -0x8000000000000000 ≤ i && i < 0x8000000000000000

/-- The time from `b` to `a`, which has to be a signed 64-bit number. -/
def elapsedSince (a b : Int) : Except Fault Int :=
  if isClockReading (a - b) then .ok (a - b) else .error (.crash .subOverflow)

/-- The product of two signed 64-bit numbers, cut off at the ends of their range. -/
def mulSaturating (a b : Int) : Int := max (-0x8000000000000000) (min (a * b) 0x7FFFFFFFFFFFFFFF)

end Referents
