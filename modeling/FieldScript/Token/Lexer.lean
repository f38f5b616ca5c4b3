/-
# From text to tokens

The source is read from the front, one token at a time.  Spaces, tabs and
carriage returns separate tokens; a newline is a token of its own.

| starts with | token |
| --- | --- |
| `//` | comment up to the end of the line, trimmed |
| `/*` | comment up to the next `*/`, trimmed |
| a digit, or `.` and a digit | number: digits, then at most one point that a digit follows |
| a letter or `_` | name of letters, digits of any script, `_` and `.`; `if` is a keyword |
| an operator or bracket | the longest operator that fits |

`lexeme` decides which token stands at the front and how many characters it
takes; `scanFrom` strings the tokens together and counts lines and columns.
-/

import FieldScript.Token
import FieldScript.Text.Alphabetic
import FieldScript.Text.Blank
import FieldScript.Text.Numeric

namespace FieldScript

/-- Why a text is no row of tokens. -/
inductive LexFault where
  | unterminatedComment
  | unexpected (c : Char)
  /-- Digits and points that are read as no number. -/
  | invalidNumber (digits : String)
deriving DecidableEq, Inhabited

def LexFault.message : LexFault → String
  | unterminatedComment => "unterminated block comment"
  | unexpected c => "unexpected character: '" ++ String.singleton c ++ "'"
  | invalidNumber digits => "invalid number: " ++ digits

/-- A fault and where the token in question starts. -/
structure LexError where
  fault : LexFault
  span : Span
deriving DecidableEq, Inhabited

def LexError.message (e : LexError) : String := e.span.text ++ ": " ++ e.fault.message

namespace Token

/-- Characters between tokens. -/
def isGap (c : Char) : Bool := c = ' ' || c = '\t' || c = '\r'

/-- Characters that can start a name. -/
def isNameStart (c : Char) : Bool := Text.isAlphabetic c || c = '_'

/-- Characters that can go on a name; a point joins the parts of a dotted name. -/
def isNameChar (c : Char) : Bool :=
  Text.isAlphabetic c || Text.isNumeric c || c = '_' || c = '.'

/-- What stands before the next `*/`, if there is one. -/
def beforeClose : List Char → Option (List Char)
  | [] => none
  | c :: cs =>
    if c = '*' && cs.head? = some '/' then some []
    else (beforeClose cs).map (c :: ·)

/-- The digits after a point at the front. -/
def fractionDigits : List Char → List Char
  | '.' :: cs => cs.takeWhile Char.isDigit
  | _ => []

/-- The token of a number. -/
def ofDigits (digits : List Char) : Except LexFault Token :=
  match Single.read? (String.ofList digits) with
  | some x => .ok (number x)
  | none => .error (.invalidNumber (String.ofList digits))

/-- The token of a name. -/
def ofName (name : String) : Token := if name = "if" then ifWord else ident name

/-- The operator or bracket at the front, and how many characters it takes
after the first. -/
def operator? (c : Char) (next : Option Char) : Option (Token × Nat) :=
  match c, next with
  | '=', some '=' => some (cmp .eq, 1)
  | '!', some '=' => some (cmp .ne, 1)
  | '<', some '=' => some (cmp .le, 1)
  | '>', some '=' => some (cmp .ge, 1)
  | '&', some '&' => some (andAnd, 1)
  | '|', some '|' => some (orOr, 1)
  | '=', _ => some (assign, 0)
  | '<', _ => some (cmp .lt, 0)
  | '>', _ => some (cmp .gt, 0)
  | '+', _ => some (arith .add, 0)
  | '-', _ => some (arith .sub, 0)
  | '*', _ => some (arith .mul, 0)
  | '/', _ => some (arith .div, 0)
  | '%', _ => some (arith .mod, 0)
  | '(', _ => some (leftParen, 0)
  | ')', _ => some (rightParen, 0)
  | '\x7b', _ => some (leftBrace, 0)
  | '\x7d', _ => some (rightBrace, 0)
  | ',', _ => some (comma, 0)
  | ';', _ => some (semicolon, 0)
  | _, _ => none

/-- The token that starts with `c`, and how many characters of `cs` belong to it. -/
def lexeme (c : Char) (cs : List Char) : Except LexFault (Token × Nat) :=
  let next := cs.head?
  if c = '\n' then .ok (newline, 0)
  else if c = '/' && next = some '/' then
    let body := cs.tail.takeWhile (· ≠ '\n')
    .ok (comment (Text.trim (String.ofList body)), body.length + 1)
  else if c = '/' && next = some '*' then
    match beforeClose cs.tail with
    | some body => .ok (comment (Text.trim (String.ofList body)), body.length + 3)
    | none => .error .unterminatedComment
  else if c.isDigit then
    let whole := cs.takeWhile Char.isDigit
    let fraction := fractionDigits (cs.drop whole.length)
    let tail := Decimal.partsText whole fraction
    (ofDigits (c :: tail)).map (·, tail.length)
  else if c = '.' && next.any Char.isDigit then
    let tail := cs.takeWhile Char.isDigit
    (ofDigits (c :: tail)).map (·, tail.length)
  else if isNameStart c then
    let tail := cs.takeWhile isNameChar
    .ok (ofName (String.ofList (c :: tail)), tail.length)
  else
    match operator? c next with
    | some token => .ok token
    | none => .error (.unexpected c)

/-- The tokens of a text that starts at `span`, the end of input last. -/
def scanFrom (span : Span) (cs : List Char) : Except LexError (List Located) :=
  match cs with
  | [] => .ok [⟨endOfInput, span⟩]
  | c :: rest =>
    if isGap c then scanFrom (span.advance c) rest
    else
      match lexeme c rest with
      | .error fault => .error ⟨fault, span⟩
      | .ok (token, n) =>
        match scanFrom (span.after (c :: rest.take n)) (rest.drop n) with
        | .error e => .error e
        | .ok more => .ok (⟨token, span⟩ :: more)
termination_by cs.length
decreasing_by
  all_goals simp only [List.length_cons, List.length_drop]; omega

/-- The tokens of a source, the end of input last. -/
def scan (source : String) : Except LexError (List Located) :=
  scanFrom Span.start source.toList

/-- The tokens without comments and newlines. -/
def withoutLayout (tokens : List Located) : List Located :=
  tokens.filter fun t => !t.token.isLayout

end Token
end FieldScript
