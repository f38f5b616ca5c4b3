/-
# Singles as text

Three ways to write a number and one to read it:

| form | digits | layout | `1` | `1e-5` |
| --- | --- | --- | --- | --- |
| `plain` | fewest that read back | positional | `1` | `0.00001` |
| `tagged` | fewest that read back | a point or an exponent is always shown | `1.0` | `1e-5` |
| `places` | six after the point, ties to even | positional | `1.000000` | `0.000010` |

`tagged` writes an exponent below `10^-4` and from `10^16` on.  Infinities are
`inf` and `-inf`, every NaN is `NaN`, zero keeps its sign.
-/

import FieldScript.Single.Decimal
import FieldScript.Text.Column

namespace FieldScript
namespace Decimal

def digitChars (d : Decimal) : List Char := Nat.toDigits 10 d.digits

/-- The exponent of the first digit. -/
def leading (d : Decimal) : Int := d.exponent + d.digitChars.length - 1

/-- Positional layout: all digits, with a point only before decimals. -/
def plain (d : Decimal) : List Char :=
  let cs := d.digitChars
  let e := d.exponent.natAbs
  if 0 ≤ d.exponent then
    if d.digits = 0 then cs else cs ++ List.replicate e '0'
  else if e < cs.length then
    cs.take (cs.length - e) ++ '.' :: cs.drop (cs.length - e)
  else
    '0' :: '.' :: List.replicate (e - cs.length) '0' ++ cs

/-- Layout with an exponent: one digit, the others after a point. -/
def scientific (d : Decimal) : List Char :=
  let exponent := (toString d.leading).toList
  match d.digitChars with
  | [] => 'e' :: exponent
  | [c] => c :: 'e' :: exponent
  | c :: cs => c :: '.' :: cs ++ 'e' :: exponent

/-- Exponents of the first digit that are laid out positionally in tagged form. -/
def isPositional (d : Decimal) : Bool := d.digits = 0 || (-4 ≤ d.leading && d.leading < 16)

/-- Layout that cannot be taken for a whole number. -/
def tagged (d : Decimal) : List Char :=
  if d.isPositional then
    if d.exponent < 0 then d.plain else d.plain ++ ['.', '0']
  else d.scientific

end Decimal

namespace Single

/-- A number through a layout of its shortest decimal. -/
def write (layout : Decimal → List Char) (x : Single) : String :=
  if x.isNaN then "NaN"
  else
    let sign := if x.isNegative then "-" else ""
    if x.isInfinite then sign ++ "inf"
    else sign ++ String.ofList (layout (shortest x.magnitude))

/-- The form of source text. -/
def plain (x : Single) : String := x.write Decimal.plain

/-- The form of outlines, listings and logs. -/
def tagged (x : Single) : String := x.write Decimal.tagged

/-- Six places after the point, ties to even. -/
def places (x : Single) : String :=
  if x.isNaN then "NaN"
  else
    let sign := if x.isNegative then "-" else ""
    if x.isInfinite then sign ++ "inf"
    else
      let millionths := roundDiv (x.units * 1000000) oneUnits
      sign ++ toString (millionths / 1000000) ++ "." ++ Text.zeroPad 6 (millionths % 1000000)

/-- Splits off a leading `+` or `-`; the flag tells a minus. -/
def splitSign : List Char → Bool × List Char
  | '-' :: cs => (true, cs)
  | '+' :: cs => (false, cs)
  | cs => (false, cs)

/-- The exponent part: nothing, or `e` or `E`, a sign and at least one digit. -/
def readExponent? : List Char → Option Int
  | [] => some 0
  | c :: cs =>
    if c = 'e' || c = 'E' then
      let (negative, digits) := splitSign cs
      if digits.isEmpty || !digits.all Char.isDigit then none
      else
        let n := Decimal.natOfDigits digits
        some (if negative then -n else n)
    else none

/-- Reads digits with an optional point, a digit on at least one side, and an
optional exponent.  Powers of ten past the digits by more than 64 read as zero
or infinity, so larger ones are cut. -/
def readDecimal? (cs : List Char) : Option Decimal :=
  let whole := cs.takeWhile Char.isDigit
  let rest := cs.dropWhile Char.isDigit
  let (fraction, tail) := match rest with
    | '.' :: r => (r.takeWhile Char.isDigit, r.dropWhile Char.isDigit)
    | r => ([], r)
  if whole.isEmpty && fraction.isEmpty then none
  else do
    let power ← readExponent? tail
    let d := Decimal.ofParts whole fraction
    let limit : Int := whole.length + fraction.length + 64
    some { d with exponent := d.exponent + max (-limit) (min limit power) }

/-- Reads a number: an optional sign, then `inf`, `infinity` or `nan` in any
case, or a decimal. -/
def read? (s : String) : Option Single :=
  let (negative, cs) := splitSign s.toList
  let word := String.ofList (cs.map Char.toLower)
  if word = "inf" || word = "infinity" then some (infinity negative)
  else if word = "nan" then some (if negative then nan.neg else nan)
  else (readDecimal? cs).map (ofDecimal negative)

end Single
end FieldScript
