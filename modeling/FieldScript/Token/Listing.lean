/-
# Listings of tokens

One line a token: its place, its kind, and its outline or its text, in colours
if wanted.
-/

import FieldScript.Token

namespace FieldScript
namespace Token

/-- How tokens are listed. -/
structure ListingStyle where
  /-- Whether lines are coloured by kind. -/
  color : Bool
  /-- Whether tokens appear as source text and not in outline. -/
  sourceText : Bool
deriving DecidableEq, Inhabited

/-- The heading of a token's kind. -/
def kind : Token → String
  | newline => "NEWLINE"
  | comment _ => "COMMENT"
  | endOfInput => "EOF"
  | number _ => "NUMBER"
  | ident _ => "IDENT"
  | ifWord => "KEYWORD"
  | leftParen | rightParen | leftBrace | rightBrace | comma | semicolon => "PUNCT"
  | arith _ | assign => "OP"
  | cmp _ => "CMP"
  | andAnd | orOr => "LOGIC"

/-- The terminal sequence that ends a colour. -/
def resetColor : String := "\x1b[0m"

/-- The terminal sequence for a token's colour: dim for layout, magenta for
operators, and a colour each for numbers, names and the keyword. -/
def color : Token → String
  | newline | comment _ | endOfInput => "\x1b[2m"
  | number _ => "\x1b[36m"
  | ident _ => "\x1b[33m"
  | ifWord => "\x1b[34m"
  | arith _ | assign | cmp _ | andAnd | orOr => "\x1b[35m"
  | leftParen | rightParen | leftBrace | rightBrace | comma | semicolon => resetColor

/-- The token's text in a listing of source text. -/
def listedText : Token → String
  | comment body => "COMMENT: " ++ body
  | newline => "NEWLINE"
  | token => token.text

/-- One line of a listing. -/
def listedLine (style : ListingStyle) (t : Located) : String :=
  let body := Text.padRight 8 t.token.kind ++ " "
    ++ if style.sourceText then t.token.listedText else t.token.outline
  "[" ++ Text.zeroPad 2 t.span.line ++ ":" ++ Text.zeroPad 2 t.span.col ++ "] "
    ++ if style.color then t.token.color ++ body ++ resetColor else body

/-- The listing of a row of tokens. -/
def listing (style : ListingStyle) (tokens : List Located) : String :=
  String.join (tokens.map fun t => listedLine style t ++ "\n")

end Token
end FieldScript
