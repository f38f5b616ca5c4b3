/-
# Tokens

The words of the language, each with the place where it starts.  A token has
two texts: `text` is how it stands in a source, `outline` names its kind and
shows what it carries.
-/

import FieldScript.Operator
import FieldScript.Single.Text
import FieldScript.Text.Quoted

namespace FieldScript

/-- A place in a source: line and column, both counted from one. -/
structure Span where
  line : Nat
  col : Nat
deriving DecidableEq, Inhabited

namespace Span

/-- Where a source starts. -/
def start : Span := ⟨1, 1⟩

/-- The place after one character. -/
def advance (s : Span) (c : Char) : Span :=
  if c = '\n' then ⟨s.line + 1, 1⟩ else ⟨s.line, s.col + 1⟩

/-- The place after a row of characters. -/
def after (s : Span) (cs : List Char) : Span := cs.foldl advance s

/-- The place as `line:column`. -/
def text (s : Span) : String := toString s.line ++ ":" ++ toString s.col

theorem after_append (s : Span) (cs ds : List Char) :
    s.after (cs ++ ds) = (s.after cs).after ds :=
  List.foldl_append

end Span

inductive Token where
  | number (value : Single)
  | ident (name : String)
  | ifWord
  | arith (op : ArithOp)
  | cmp (op : CmpOp)
  | andAnd
  | orOr
  | assign
  | leftParen
  | rightParen
  | leftBrace
  | rightBrace
  | comma
  | semicolon
  | comment (body : String)
  | newline
  | endOfInput
deriving DecidableEq, Inhabited

namespace Token

/-- Whether the token is a comparison operator. -/
def isComparison : Token → Bool
  | cmp _ => true
  | _ => false

/-- Whether the parser reads the token: comments and newlines are layout. -/
def isLayout : Token → Bool
  | comment _ => true
  | newline => true
  | _ => false

/-- The token as it stands in a source. -/
def text : Token → String
  | number x => x.plain
  | ident name => name
  | ifWord => "if"
  | arith op => op.symbol
  | cmp op => op.symbol
  | andAnd => "&&"
  | orOr => "||"
  | assign => "="
  | leftParen => "("
  | rightParen => ")"
  | leftBrace => "\x7b"
  | rightBrace => "\x7d"
  | comma => ","
  | semicolon => ";"
  | comment body => "// " ++ body
  | newline => "\\n"
  | endOfInput => "EOF"

/-- The kind of the token and what it carries. -/
def outline : Token → String
  | number x => "Number(" ++ x.tagged ++ ")"
  | ident name => "Ident(" ++ Text.quoted name ++ ")"
  | ifWord => "If"
  | arith .add => "Plus"
  | arith .sub => "Minus"
  | arith .mul => "Star"
  | arith .div => "Slash"
  | arith .mod => "Percent"
  | cmp op => op.name
  | andAnd => "AndAnd"
  | orOr => "OrOr"
  | assign => "Assign"
  | leftParen => "LParen"
  | rightParen => "RParen"
  | leftBrace => "LBrace"
  | rightBrace => "RBrace"
  | comma => "Comma"
  | semicolon => "Semicolon"
  | comment body => "Comment(" ++ Text.quoted body ++ ")"
  | newline => "Newline"
  | endOfInput => "Eof"

end Token

/-- A token and the place where it starts. -/
structure Located where
  token : Token
  span : Span
deriving DecidableEq, Inhabited

end FieldScript
