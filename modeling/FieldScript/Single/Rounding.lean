/-
# Rounding to the nearest single

Every operation is computed exactly, as a quotient of natural numbers in units
of `2^-149`, and rounded once.  `roundDiv` rounds a quotient to a natural
number, ties to even.  `nearest` rounds it to a magnitude: the quotient is
scaled so that 24 bits stay in front of the point, and since magnitudes are
consecutive numbers, `shift * 2^23` plus the rounded 24 bits is the magnitude,
also when rounding carries into the next power of two.
-/

import FieldScript.Single.Basic

namespace FieldScript
namespace Single

/-- The quotient `num / den` rounded to a natural number, ties to even. -/
def roundDiv (num den : Nat) : Nat :=
  let q := num / den
  let r := num % den
  if 2 * r < den then q
  else if den < 2 * r then q + 1
  else q + q % 2

/-- The magnitude nearest to `num / den` units of `2^-149`, ties to even; what
lies half a step or more past the largest finite number becomes infinity. -/
def nearest (num den : Nat) : Nat :=
  let shift := (num / den).log2 - 23
  min infinityMagnitude (shift * 0x800000 + roundDiv num (den <<< shift))

/-- The nearest number to `± num / den` units of `2^-149`. -/
def ofRatio (negative : Bool) (num den : Nat) : Single :=
  ofMagnitude negative (nearest num den)

/-- A quotient without remainder rounds to itself. -/
theorem roundDiv_mul_right (q : Nat) {den : Nat} (h : 0 < den) :
    roundDiv (q * den) den = q := by
  simp [roundDiv, Nat.mul_div_cancel _ h, h]

end Single
end FieldScript
