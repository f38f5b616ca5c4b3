/-
# Decimals and singles

A decimal is `digits * 10^exponent`.  Reading one gives the nearest single,
ties to even, straight from the exact value.  The other way, `shortest` gives
the decimal with the fewest digits that reads back as the same number: it goes
through the powers of ten from the coarsest on and tests the two multiples next
to the value.  If both read back the nearer one is taken, and the upper one of
two equally near.  Should no multiple of the ten powers tried read back, the
exact value is given, which always does: one unit is `5^149 * 10^-149`.
-/

import FieldScript.Single.Arithmetic

namespace FieldScript

/-- The number `digits * 10^exponent`. -/
structure Decimal where
  digits : Nat
  exponent : Int
deriving DecidableEq, Inhabited

namespace Decimal

/-- The value of a row of digit characters. -/
def natOfDigits (cs : List Char) : Nat :=
  cs.foldl (fun n c => 10 * n + (c.toNat - '0'.toNat)) 0

/-- The decimal written as digits before and after a point. -/
def ofParts (whole fraction : List Char) : Decimal :=
  ⟨natOfDigits (whole ++ fraction), -fraction.length⟩

/-- The text of digits before and after a point, which is left out if no digits
follow. -/
def partsText (whole fraction : List Char) : List Char :=
  if fraction.isEmpty then whole else whole ++ '.' :: fraction

/-- A decimal's value in units of `2^-149`, as numerator and denominator. -/
def ratio (d : Decimal) : Nat × Nat :=
  if d.exponent < 0 then (d.digits * Single.oneUnits, Nat.pow 10 d.exponent.natAbs)
  else (d.digits * Nat.pow 10 d.exponent.natAbs * Single.oneUnits, 1)

/-- The magnitude nearest to a decimal. -/
def magnitude (d : Decimal) : Nat := Single.nearest d.ratio.1 d.ratio.2

/-- The same value without the trailing zeros of the digits, at most `fuel`
of them. -/
def trimZeros (fuel : Nat) (d : Decimal) : Decimal :=
  match fuel with
  | 0 => d
  | fuel + 1 =>
    if d.digits ≠ 0 ∧ d.digits % 10 = 0 then trimZeros fuel ⟨d.digits / 10, d.exponent + 1⟩
    else d

end Decimal

namespace Single

/-- The single nearest to `± d`. -/
def ofDecimal (negative : Bool) (d : Decimal) : Single := ofMagnitude negative d.magnitude

/-- The number of digits of `n` in base ten. -/
def digitCount (n : Nat) : Nat := (Nat.toDigits 10 n).length

/-- A power of ten that lies above `u` units. -/
def decimalTop (u : Nat) : Int :=
  if oneUnits ≤ u then digitCount (u / oneUnits) else 1 - digitCount (oneUnits / u)

/-- The exact value of a whole number of units. -/
def exactDecimal (u : Nat) : Decimal := ⟨u * Nat.pow 5 149, -149⟩

/-- The two multiples of `10^exponent` next to `u` units: the nearer one first,
the upper one in a tie. -/
def neighbours (u : Nat) (exponent : Int) : List Decimal :=
  let num := if exponent < 0 then u * Nat.pow 10 exponent.natAbs else u
  let den := if exponent < 0 then oneUnits else oneUnits * Nat.pow 10 exponent.natAbs
  let below : Decimal := ⟨num / den, exponent⟩
  let above : Decimal := ⟨num / den + 1, exponent⟩
  if den ≤ 2 * (num % den) then [above, below] else [below, above]

/-- The nearest multiple of `10^exponent` that reads back as magnitude `k`. -/
def onGrid (k : Nat) (exponent : Int) : Option Decimal :=
  (neighbours (unitsOf k) exponent).find? fun d => d.magnitude = k

/-- The decimal with the fewest digits that reads back as the finite magnitude
`k`; nine digits are always enough. -/
def shortest (k : Nat) : Decimal :=
  if k = 0 then ⟨0, 0⟩
  else
    let top := decimalTop (unitsOf k)
    let found := (List.range 10).findSome? fun (n : Nat) => onGrid k (top - n)
    (found.getD (exactDecimal (unitsOf k))).trimZeros 400

theorem magnitude_of_onGrid {k : Nat} {e : Int} {d : Decimal} (h : onGrid k e = some d) :
    d.magnitude = k := by
  simpa using List.find?_some h

end Single
end FieldScript
