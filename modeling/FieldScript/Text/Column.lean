/-
# Columns

Texts and numbers filled up to the width of a column.
-/

namespace FieldScript
namespace Text

/-- A text with spaces after it, at least `width` characters. -/
def padRight (width : Nat) (s : String) : String :=
  s ++ String.ofList (List.replicate (width - s.length) ' ')

/-- A text with `fill` in front of it, at least `width` characters. -/
def padLeft (fill : Char) (width : Nat) (s : String) : String :=
  String.ofList (List.replicate (width - s.length) fill) ++ s

/-- A natural number with zeros in front of it, at least `width` digits. -/
def zeroPad (width n : Nat) : String := padLeft '0' width (toString n)

end Text
end FieldScript
