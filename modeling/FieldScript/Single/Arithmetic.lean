/-
# Arithmetic on singles

Addition, subtraction, multiplication, division, remainder, square root and
the roundings to whole numbers.  A NaN operand is passed on, made quiet, the
left one first; an operation without a numeric result gives `undefined`.
-/

import FieldScript.Single.Rounding

namespace FieldScript
namespace Single

/-- One in units: `2^149`. -/
def oneUnits : Nat := 1 <<< 149

/-- Passes on a NaN operand, the left one first. -/
def withOperands (x y : Single) (result : Single) : Single :=
  if x.isNaN then x.quiet else if y.isNaN then y.quiet else result

/-- Passes on a NaN operand. -/
def withOperand (x : Single) (result : Single) : Single :=
  if x.isNaN then x.quiet else result

/-- The nearest number to a whole number of units; `negativeZero` is the sign
of a result that is zero. -/
def ofUnits (u : Int) (negativeZero : Bool) : Single :=
  if u = 0 then ofMagnitude negativeZero 0 else ofRatio (u < 0) u.natAbs 1

/-- The sum.  An exact zero is negative only if both operands are. -/
def add (x y : Single) : Single :=
  withOperands x y <|
    if x.isInfinite then
      if y.isInfinite && x.isNegative != y.isNegative then undefined else x
    else if y.isInfinite then y
    else ofUnits (x.signedUnits + y.signedUnits) (x.isNegative && y.isNegative)

/-- The difference.  An exact zero is negative only for `-0 - 0`. -/
def sub (x y : Single) : Single :=
  withOperands x y <|
    if x.isInfinite then
      if y.isInfinite && x.isNegative == y.isNegative then undefined else x
    else if y.isInfinite then y.neg
    else ofUnits (x.signedUnits - y.signedUnits) (x.isNegative && !y.isNegative)

/-- The product. -/
def mul (x y : Single) : Single :=
  let negative := x.isNegative != y.isNegative
  withOperands x y <|
    if x.isInfinite || y.isInfinite then
      if x.isZero || y.isZero then undefined else infinity negative
    else ofRatio negative (x.units * y.units) oneUnits

/-- The quotient.  A nonzero number over zero is infinite. -/
def div (x y : Single) : Single :=
  let negative := x.isNegative != y.isNegative
  withOperands x y <|
    if x.isInfinite then
      if y.isInfinite then undefined else infinity negative
    else if y.isInfinite then ofMagnitude negative 0
    else if y.isZero then
      if x.isZero then undefined else infinity negative
    else ofRatio negative (x.units * oneUnits) y.units

/-- The remainder of the division toward zero; it has the sign of `x`. -/
def rem (x y : Single) : Single :=
  withOperands x y <|
    if x.isInfinite || y.isZero then undefined
    else if y.isInfinite then x
    else ofRatio x.isNegative (x.units % y.units) 1

/-- The integer square root of `n`, by Newton's method from above; `fuel`
bounds the number of steps, each of which at least halves the error. -/
def isqrtFrom (fuel n guess : Nat) : Nat :=
  match fuel with
  | 0 => guess
  | fuel + 1 =>
    let next := (guess + n / guess) / 2
    if next < guess then isqrtFrom fuel n next else guess

/-- The integer square root: the largest `s` with `s * s ≤ n`. -/
def isqrt (n : Nat) : Nat :=
  if n = 0 then 0 else isqrtFrom (n.log2 + 2) n (1 <<< (n.log2 / 2 + 1))

/-- The square root.  In units it is the root of `units * 2^149`, a number of at
least 150 bits; what the integer root leaves over counts as half a unit, which
no midpoint between two singles can tell apart from the exact root. -/
def sqrt (x : Single) : Single :=
  withOperand x <|
    if x.isZero then x
    else if x.isNegative then undefined
    else if x.isInfinite then x
    else
      let n := x.units * oneUnits
      let s := isqrt n
      ofRatio false (2 * s + if s * s = n then 0 else 1) 2

/-- Rounds a finite number to a whole number by `whole`, which gets the sign
and the absolute value as a quotient; keeps the sign of a zero result. -/
def toWhole (whole : Bool → Nat → Nat → Nat) (x : Single) : Single :=
  withOperand x <|
    if x.isInfinite then x
    else ofRatio x.isNegative (whole x.isNegative x.units oneUnits * oneUnits) 1

/-- The largest whole number that is not above. -/
def floor : Single → Single :=
  toWhole fun negative num den => if negative then (num + (den - 1)) / den else num / den

/-- The smallest whole number that is not below. -/
def ceil : Single → Single :=
  toWhole fun negative num den => if negative then num / den else (num + (den - 1)) / den

/-- The nearest whole number; a half goes away from zero. -/
def round : Single → Single :=
  toWhole fun _ num den => (2 * num + den) / (2 * den)

/-- `-1` below zero and `1` otherwise, NaNs and zeros included. -/
def sign (x : Single) : Single := if x.lt zero then one.neg else one

/-- Degrees to radians: a product with `π / 180` as a single. -/
def toRadians (x : Single) : Single := x.mul ⟨0x3c8efa35⟩

/-- Radians to degrees: a product with `180 / π` as a single. -/
def toDegrees (x : Single) : Single := x.mul ⟨0x42652ee1⟩

/-- `x` kept between the bounds; the upper bound is tested first. -/
def clamp (lower upper x : Single) : Single :=
  if upper.lt x then upper else if x.lt lower then lower else x

/-- Linear interpolation from `a` to `b`, with `t` clamped to `[0, 1]`. -/
def lerp (a b t : Single) : Single :=
  a.add ((b.sub a).mul (clamp zero one t))

/-- Smooth interpolation: `t² (3 - 2 t)`, where `t` is the place of `x` between
the edges `a` and `b`, clamped to `[0, 1]`. -/
def smoothstep (a b x : Single) : Single :=
  let t := clamp zero one ((x.sub a).div (b.sub a))
  (t.mul t).mul (sub ⟨0x40400000⟩ (mul ⟨0x40000000⟩ t))

end Single
end FieldScript
