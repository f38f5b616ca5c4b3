/-
# Single-precision numbers

A number is kept as its 32 bits, so that every NaN keeps its payload and the
two zeros stay apart.  Below the sign bit the bits, read as a natural number,
are the *magnitude*, and they split the numbers into four classes:

| magnitude `k` | class | value |
| --- | --- | --- |
| `k < 2^23` | zero, subnormal | `k` units |
| `2^23 ≤ k < inf` | normal | `(2^23 + k % 2^23) * 2^(k / 2^23 - 1)` units |
| `k = inf = 255 * 2^23` | infinity | |
| `inf < k` | NaN | |

One unit is `2^-149`, the smallest positive number.  Every finite number is a
whole number of units, so sums, remainders and comparisons are exact in `Nat`.
A larger magnitude is a larger value, which makes comparison a comparison of
signed magnitudes.
-/

namespace FieldScript

/-- A single-precision number: a sign bit, eight exponent bits, 23 fraction bits. -/
structure Single where
  bits : UInt32
deriving DecidableEq, Inhabited

namespace Single

/-- The bits below the sign bit. -/
def magnitude (x : Single) : Nat := x.bits.toNat % 0x80000000

/-- The sign bit; zeros and NaNs have one too. -/
def isNegative (x : Single) : Bool := 0x80000000 ≤ x.bits.toNat

/-- The magnitude of infinity. -/
def infinityMagnitude : Nat := 0x7f800000

/-- The number with the given sign and magnitude. -/
def ofMagnitude (negative : Bool) (k : Nat) : Single :=
  ⟨UInt32.ofNat (if negative then 0x80000000 + k else k)⟩

def isNaN (x : Single) : Bool := infinityMagnitude < x.magnitude

def isInfinite (x : Single) : Bool := x.magnitude = infinityMagnitude

def isFinite (x : Single) : Bool := x.magnitude < infinityMagnitude

def isZero (x : Single) : Bool := x.magnitude = 0

/-- The value of a finite magnitude in units of `2^-149`. -/
def unitsOf (k : Nat) : Nat :=
  if k < 0x800000 then k else (0x800000 + k % 0x800000) <<< (k / 0x800000 - 1)

/-- The absolute value of a finite number in units of `2^-149`. -/
def units (x : Single) : Nat := unitsOf x.magnitude

/-- The value of a finite number in units of `2^-149`. -/
def signedUnits (x : Single) : Int := if x.isNegative then -x.units else x.units

def zero : Single := ⟨0⟩

def one : Single := ⟨0x3f800000⟩

def infinity (negative : Bool) : Single := ofMagnitude negative infinityMagnitude

/-- The quiet NaN that the text `nan` reads as. -/
def nan : Single := ⟨0x7fc00000⟩

/-- The NaN left by an operation that has no numeric result, such as `0 / 0`. -/
def undefined : Single := ⟨0xffc00000⟩

/-- A NaN with its quiet bit set. -/
def quiet (x : Single) : Single := ⟨x.bits ||| 0x00400000⟩

/-- The number with its sign bit flipped, NaNs included. -/
def neg (x : Single) : Single := ⟨x.bits ^^^ 0x80000000⟩

/-- The number with its sign bit cleared, NaNs included. -/
def abs (x : Single) : Single := ⟨x.bits &&& 0x7fffffff⟩

/-- The signed magnitude: numbers compare as their ranks do. -/
def rank (x : Single) : Int := if x.isNegative then -x.magnitude else x.magnitude

/-- Comparisons with a NaN are all false, apart from "differs". -/
def comparable (x y : Single) : Bool := !x.isNaN && !y.isNaN

/-- Equality as numbers: the zeros are equal, a NaN differs from itself. -/
def numEq (x y : Single) : Bool := comparable x y && x.rank = y.rank

def lt (x y : Single) : Bool := comparable x y && x.rank < y.rank

def le (x y : Single) : Bool := comparable x y && x.rank ≤ y.rank

theorem magnitude_lt (x : Single) : x.magnitude < 0x80000000 :=
  Nat.mod_lt _ (by decide)

/-- Two numbers that are no NaNs stand in one of three relations. -/
theorem le_iff_not_lt {x y : Single} (h : comparable x y = true) :
    le x y = !lt y x := by
  have h' : comparable y x = true := by
    simpa [comparable, and_comm] using h
  simp only [le, lt, h, h', Bool.true_and]
  rcases Int.lt_or_le y.rank x.rank with hlt | hge
  · simp [hlt, Int.not_le.2 hlt]
  · simp [hge, Int.not_lt.2 hge]

end Single
end FieldScript
