/-
# From tokens to trees

A parser reads tokens from the front of a cursor.  When it fails, the cursor
stays where the failure was found, and a later call goes on from there.

    program    := statement*
    statement  := ';' | 'if' '(' expression ')' block | block
                | name '=' expression ';' | expression ';'
    block      := '{' statement* '}'
    expression := conj ('||' conj)*
    conj       := comparison ('&&' comparison)*
    comparison := sum (cmp sum)?
    sum        := product (('+' | '-') product)*
    product    := unary (('*' | '/' | '%') unary)*
    unary      := '-' unary | primary
    primary    := number | name | name '(' arguments? ')' | '(' expression ')'

Loops and nesting are bounded by the number of tokens left: each round of a
loop and each level of nesting reads one at least, so the bound is never felt.
-/

import FieldScript.Expr
import FieldScript.Token.Lexer

namespace FieldScript

/-- What a parser hoped to find. -/
inductive Expectation where
  | token (t : Token)
  | expression
  | commaOrParen
  | blockOfCondition
deriving DecidableEq, Inhabited

def Expectation.text : Expectation → String
  | token t => "'" ++ t.text ++ "'"
  | expression => "an expression"
  | commaOrParen => "',' or ')'"
  | blockOfCondition => "'\x7b' after if condition"

/-- Why a row of tokens is no program. -/
inductive ParseFault where
  /-- Something else was found, or `none` at the end of the input. -/
  | expected (what : Expectation) (found : Option Token)
  | chainedComparison
deriving DecidableEq, Inhabited

def ParseFault.message : ParseFault → String
  | expected what none => "expected " ++ what.text ++ ", found end of input"
  | expected what (some t) => "expected " ++ what.text ++ ", found '" ++ t.text ++ "'"
  | chainedComparison => "comparisons cannot be chained; use && or ||"

/-- A fault and the place of the token at which it was found. -/
structure ParseError where
  fault : ParseFault
  span : Span
deriving DecidableEq, Inhabited

def ParseError.message (e : ParseError) : String := e.span.text ++ ": " ++ e.fault.message

/-- The tokens still to be read, and the place of the last one read. -/
structure Cursor where
  rest : List Located
  last : Option Span
deriving DecidableEq, Inhabited

namespace Cursor

/-- A cursor in front of a row of tokens; comments and newlines are dropped. -/
def ofTokens (tokens : List Located) : Cursor := ⟨Token.withoutLayout tokens, none⟩

/-- Where a fault found here lies: at the next token, else at the last one read,
else at the start of the source. -/
def span (c : Cursor) : Span :=
  match c.rest, c.last with
  | t :: _, _ => t.span
  | [], some s => s
  | [], none => Span.start

/-- The next token. -/
def peek (c : Cursor) : Option Token := c.rest.head?.map (·.token)

/-- The token after the next. -/
def peekSecond (c : Cursor) : Option Token := c.rest.tail.head?.map (·.token)

/-- The cursor past the next token. -/
def advance (c : Cursor) : Cursor :=
  match c.rest with
  | t :: rest => ⟨rest, some t.span⟩
  | [] => c

/-- Whether no statement can start here. -/
def atEnd (c : Cursor) : Bool :=
  match c.peek with
  | none => true
  | some t => t = .endOfInput

end Cursor

/-- A parser keeps its cursor when it fails. -/
abbrev Parser := EStateM ParseError Cursor

namespace Parser

def peek : Parser (Option Token) := do return (← get).peek

def advance : Parser Unit := modify Cursor.advance

/-- The number of tokens left, a bound for loops and nesting. -/
def remaining : Parser Nat := do return (← get).rest.length

/-- Fails at the next token. -/
def fail {α : Type} (fault : ParseFault) : Parser α := do
  throw ⟨fault, (← get).span⟩

/-- Fails for want of something else than the next token. -/
def unexpected {α : Type} (what : Expectation) : Parser α := do
  fail (.expected what ((← peek).filter (· ≠ .endOfInput)))

/-- Reads the given token. -/
def expect (t : Token) : Parser Unit := do
  if (← peek) = some t then advance else unexpected (.token t)

/-- Goes on from `lhs` while an operator that `combine` knows is next. -/
def chain (combine : Token → Option (Expr → Expr → Expr)) (operand : Parser Expr) :
    Nat → Expr → Parser Expr
  | 0, lhs => return lhs
  | bound + 1, lhs => do
    match (← peek).bind combine with
    | none => return lhs
    | some node =>
      advance
      let rhs ← operand
      chain combine operand bound (node lhs rhs)

/-- Operands joined by operators, from the left. -/
def leftAssoc (combine : Token → Option (Expr → Expr → Expr)) (operand : Parser Expr) :
    Parser Expr := do
  let lhs ← operand
  chain combine operand (← remaining) lhs

def disjunction : Token → Option (Expr → Expr → Expr)
  | .orOr => some .or
  | _ => none

def conjunction : Token → Option (Expr → Expr → Expr)
  | .andAnd => some .and
  | _ => none

def additive : Token → Option (Expr → Expr → Expr)
  | .arith .add => some (.arith .add)
  | .arith .sub => some (.arith .sub)
  | _ => none

def multiplicative : Token → Option (Expr → Expr → Expr)
  | .arith .mul => some (.arith .mul)
  | .arith .div => some (.arith .div)
  | .arith .mod => some (.arith .mod)
  | _ => none

/-- One operand, or two with a comparison between them; a second comparison
operator is a fault. -/
def comparison (operand : Parser Expr) : Parser Expr := do
  let lhs ← operand
  match (← peek) with
  | some (.cmp op) =>
    advance
    let rhs ← operand
    if (← peek).any Token.isComparison then fail .chainedComparison
    return .cmp op lhs rhs
  | _ => return lhs

/-- Minus signs in front of an operand. -/
def unary (primary : Parser Expr) : Nat → Parser Expr
  | 0 => primary
  | bound + 1 => do
    if (← peek) = some (.arith .sub) then
      advance
      let operand ← unary primary bound
      return operand.negate
    else primary

/-- The arguments after the first ones, in reverse, up to the closing parenthesis. -/
def argumentsTail (expression : Parser Expr) : Nat → List Expr → Parser (List Expr)
  | 0, _ => unexpected .expression
  | bound + 1, args => do
    let arg ← expression
    match (← peek) with
    | some .comma =>
      advance
      argumentsTail expression bound (arg :: args)
    | some .rightParen =>
      advance
      return (arg :: args).reverse
    | _ => unexpected .commaOrParen

/-- Arguments in parentheses. -/
def arguments (expression : Parser Expr) : Parser (List Expr) := do
  expect .leftParen
  if (← peek) = some .rightParen then
    advance
    return []
  else argumentsTail expression ((← remaining) + 1) []

/-- A number, a name, a call or an expression in parentheses. -/
def primary (expression : Parser Expr) : Parser Expr := do
  match (← peek) with
  | some (.number x) =>
    advance
    return .literal x
  | some (.ident name) =>
    advance
    if (← peek) = some .leftParen then
      return .call name (← arguments expression)
    else return .ident name
  | some .leftParen =>
    advance
    let inner ← expression
    expect .rightParen
    return inner
  | _ => unexpected .expression

/-- All levels of operators over the expressions inside parentheses. -/
def levels (inner : Parser Expr) : Parser Expr :=
  let unary := do unary (primary inner) (← remaining)
  let sum := leftAssoc additive (leftAssoc multiplicative unary)
  leftAssoc disjunction (leftAssoc conjunction (comparison sum))

/-- An expression with at most `depth` parentheses inside one another. -/
def nested : Nat → Parser Expr
  | 0 => unexpected .expression
  | depth + 1 => levels (nested depth)

def expression : Parser Expr := do nested ((← remaining) + 1)

/-- Statements up to the closing brace, after those given in reverse. -/
def statements (statement : Parser (Option Expr)) : Nat → List Expr → Parser (List Expr)
  | 0, _ => unexpected (.token .rightBrace)
  | bound + 1, done => do
    if (← peek) = some .rightBrace then
      advance
      return done.reverse
    else if (← get).atEnd then unexpected (.token .rightBrace)
    else
      let next ← statement
      statements statement bound (next.toList ++ done)

/-- Statements in braces. -/
def block (statement : Parser (Option Expr)) : Parser Expr := do
  expect .leftBrace
  return .block (← statements statement ((← remaining) + 1) [])

/-- An `if` with its condition and block. -/
def conditional (statement : Parser (Option Expr)) : Parser Expr := do
  advance
  expect .leftParen
  let condition ← expression
  expect .rightParen
  if (← peek) = some .leftBrace then
    return .conditional condition (← block statement)
  else unexpected .blockOfCondition

/-- An assignment or an expression, with its semicolon. -/
def simpleStatement : Parser Expr := do
  let cursor ← get
  match cursor.peek, cursor.peekSecond with
  | some (.ident name), some .assign =>
    advance
    advance
    let value ← expression
    expect .semicolon
    return .assign name value
  | _, _ =>
    let value ← expression
    expect .semicolon
    return value

/-- A statement over the statements inside its blocks; `none` for a lone
semicolon. -/
def statementOver (inner : Parser (Option Expr)) : Parser (Option Expr) := do
  match (← peek) with
  | some .semicolon =>
    advance
    return none
  | some .ifWord => return some (← conditional inner)
  | some .leftBrace => return some (← block inner)
  | _ => return some (← simpleStatement)

/-- A statement with at most `depth` blocks inside one another. -/
def statementNested : Nat → Parser (Option Expr)
  | 0 => unexpected .expression
  | depth + 1 => statementOver (statementNested depth)

def statement : Parser (Option Expr) := do statementNested ((← remaining) + 1)

/-- Statements up to the end of the input, after those given in reverse. -/
def programTail : Nat → List Expr → Parser (List Expr)
  | 0, done => return done.reverse
  | bound + 1, done => do
    if (← get).atEnd then return done.reverse
    else
      let next ← statement
      programTail bound (next.toList ++ done)

/-- A whole program, as one block. -/
def program : Parser Expr := do
  return .block (← programTail (← remaining) [])

end Parser

/-- Why a source is no program. -/
inductive SourceError where
  | lex (error : LexError)
  | parse (error : ParseError)
deriving DecidableEq, Inhabited

namespace SourceError

/-- The message of the stage that failed. -/
def cause : SourceError → String
  | lex e => e.message
  | parse e => e.message

def message : SourceError → String
  | lex e => "lexer error: " ++ e.message
  | parse e => "parse error: " ++ e.message

def span : SourceError → Span
  | lex e => e.span
  | parse e => e.span

end SourceError

/-- The program that a source text spells. -/
def Expr.ofSource (source : String) : Except SourceError Expr :=
  match Token.scan source with
  | .error e => .error (.lex e)
  | .ok tokens =>
    match Parser.program (Cursor.ofTokens tokens) with
    | .ok program _ => .ok program
    | .error e _ => .error (.parse e)

end FieldScript
