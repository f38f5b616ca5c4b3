/-
# Quoted text

A text between double quotes, on one line.  A quote and a backslash get a
backslash in front; tab, newline, carriage return and NUL have letters of their
own; what else would not be seen as a character of its own (unprintable,
combining and ignorable characters) is written by its code point.
-/

import FieldScript.Text.Combining
import FieldScript.Text.Ignorable
import FieldScript.Text.Unprintable

namespace FieldScript
namespace Text

/-- A character by its code point: `\\u`, then the hexadecimal digits in braces. -/
def codePoint (c : Char) : String :=
  "\\u\x7b" ++ String.ofList (Nat.toDigits 16 c.toNat) ++ "\x7d"

/-- Whether a character is not seen as one of its own. -/
def isHidden (c : Char) : Bool := isCombining c || isIgnorable c || isUnprintable c

/-- A character as it stands between quotes. -/
def escape (c : Char) : String :=
  match c with
  | '"' => "\\\""
  | '\\' => "\\\\"
  | '\t' => "\\t"
  | '\n' => "\\n"
  | '\r' => "\\r"
  | '\x00' => "\\0"
  | c => if isHidden c then codePoint c else String.singleton c

/-- A text between double quotes. -/
def quoted (s : String) : String :=
  "\"" ++ String.join (s.toList.map escape) ++ "\""

end Text
end FieldScript
