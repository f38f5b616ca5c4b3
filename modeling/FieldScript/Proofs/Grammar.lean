/-
# The grammar

Which tokens spell which tree, one relation for each symbol of the grammar and
one rule for each way to derive it.

    program    := statement*
    statement  := ';' | 'if' '(' expression ')' block | block
                | name '=' expression ';' | expression ';'
    block      := '{' statement* '}'
    expression := conjunction | expression '||' conjunction
    conjunction := comparison | conjunction '&&' comparison
    comparison := sum | sum cmp sum
    sum        := product | sum ('+' | '-') product
    product    := unary | product ('*' | '/' | '%') unary
    unary      := primary | '-' unary
    primary    := number | name | name '(' arguments? ')' | '(' expression ')'
    arguments  := expression | expression ',' arguments

The rules for binary operators are left recursive, so the operators group from
the left; a comparison has no comparison in it.  Parentheses leave no trace in
the tree, and a lone semicolon is a statement without a tree.

The binary levels are all of one form (`Joined`), and derivations of them are
turned into that form and back.  What a derivation starts with and which tokens
it may hold are read off its rules.
-/

import FieldScript.Expr.Parser

namespace FieldScript
namespace Grammar

mutual

inductive Expression : List Token → Expr → Prop
  | conjunction {ts : List Token} {e : Expr} (h : Conjunction ts e) : Expression ts e
  | or {ts us : List Token} {l r : Expr} (hl : Expression ts l) (hr : Conjunction us r) :
      Expression (ts ++ .orOr :: us) (.or l r)

inductive Conjunction : List Token → Expr → Prop
  | comparison {ts : List Token} {e : Expr} (h : Comparison ts e) : Conjunction ts e
  | and {ts us : List Token} {l r : Expr} (hl : Conjunction ts l) (hr : Comparison us r) :
      Conjunction (ts ++ .andAnd :: us) (.and l r)

inductive Comparison : List Token → Expr → Prop
  | sum {ts : List Token} {e : Expr} (h : Sum ts e) : Comparison ts e
  | cmp {ts us : List Token} {l r : Expr} (op : CmpOp) (hl : Sum ts l) (hr : Sum us r) :
      Comparison (ts ++ .cmp op :: us) (.cmp op l r)

inductive Sum : List Token → Expr → Prop
  | product {ts : List Token} {e : Expr} (h : Product ts e) : Sum ts e
  | add {ts us : List Token} {l r : Expr} (hl : Sum ts l) (hr : Product us r) :
      Sum (ts ++ .arith .add :: us) (.arith .add l r)
  | sub {ts us : List Token} {l r : Expr} (hl : Sum ts l) (hr : Product us r) :
      Sum (ts ++ .arith .sub :: us) (.arith .sub l r)

inductive Product : List Token → Expr → Prop
  | unary {ts : List Token} {e : Expr} (h : Unary ts e) : Product ts e
  | mul {ts us : List Token} {l r : Expr} (hl : Product ts l) (hr : Unary us r) :
      Product (ts ++ .arith .mul :: us) (.arith .mul l r)
  | div {ts us : List Token} {l r : Expr} (hl : Product ts l) (hr : Unary us r) :
      Product (ts ++ .arith .div :: us) (.arith .div l r)
  | mod {ts us : List Token} {l r : Expr} (hl : Product ts l) (hr : Unary us r) :
      Product (ts ++ .arith .mod :: us) (.arith .mod l r)

inductive Unary : List Token → Expr → Prop
  | primary {ts : List Token} {e : Expr} (h : Primary ts e) : Unary ts e
  /-- A minus sign before a literal is part of the literal. -/
  | minusLiteral {ts : List Token} {x : Single} (h : Unary ts (.literal x)) :
      Unary (.arith .sub :: ts) (.literal x.neg)
  /-- A minus sign before anything else is a product with `-1`. -/
  | minus {ts : List Token} {e : Expr} (h : Unary ts e) (hne : ∀ x, e ≠ .literal x) :
      Unary (.arith .sub :: ts) (.arith .mul (.literal Single.one.neg) e)

inductive Primary : List Token → Expr → Prop
  | number (x : Single) : Primary [.number x] (.literal x)
  | ident (name : String) : Primary [.ident name] (.ident name)
  | callNone (name : String) : Primary [.ident name, .leftParen, .rightParen] (.call name [])
  | call {ts : List Token} {args : List Expr} (name : String) (h : Arguments ts args) :
      Primary (.ident name :: .leftParen :: ts ++ [.rightParen]) (.call name args)
  | paren {ts : List Token} {e : Expr} (h : Expression ts e) :
      Primary (.leftParen :: ts ++ [.rightParen]) e

inductive Arguments : List Token → List Expr → Prop
  | one {ts : List Token} {e : Expr} (h : Expression ts e) : Arguments ts [e]
  | more {ts us : List Token} {e : Expr} {es : List Expr} (h : Expression ts e)
      (hs : Arguments us es) : Arguments (ts ++ .comma :: us) (e :: es)

end

mutual

inductive Statement : List Token → Option Expr → Prop
  | empty : Statement [.semicolon] none
  | conditional {ts us : List Token} {c b : Expr} (hc : Expression ts c) (hb : Block us b) :
      Statement (.ifWord :: .leftParen :: ts ++ .rightParen :: us) (some (.conditional c b))
  | block {ts : List Token} {b : Expr} (h : Block ts b) : Statement ts (some b)
  | assign {ts : List Token} {e : Expr} (name : String) (h : Expression ts e) :
      Statement (.ident name :: .assign :: ts ++ [.semicolon]) (some (.assign name e))
  | expression {ts : List Token} {e : Expr} (h : Expression ts e) :
      Statement (ts ++ [.semicolon]) (some e)

inductive Block : List Token → Expr → Prop
  | braces {ts : List Token} {es : List Expr} (h : Statements ts es) :
      Block (.leftBrace :: ts ++ [.rightBrace]) (.block es)

inductive Statements : List Token → List Expr → Prop
  | nil : Statements [] []
  | cons {ts us : List Token} {s : Option Expr} {es : List Expr} (h : Statement ts s)
      (hs : Statements us es) : Statements (ts ++ us) (s.toList ++ es)

end

/-- A whole program is one block, without braces. -/
inductive Program : List Token → Expr → Prop
  | block {ts : List Token} {es : List Expr} (h : Statements ts es) : Program ts (.block es)

/-! ### Binary levels -/

/-- Operands joined by operators, from the left. -/
inductive Joined (operator : Token → Option (Expr → Expr → Expr))
    (Operand : List Token → Expr → Prop) : List Token → Expr → Prop
  | operand {ts : List Token} {e : Expr} (h : Operand ts e) : Joined operator Operand ts e
  | join {ts us : List Token} {t : Token} {node : Expr → Expr → Expr} {l r : Expr}
      (hl : Joined operator Operand ts l) (ht : operator t = some node) (hr : Operand us r) :
      Joined operator Operand (ts ++ t :: us) (node l r)

section Levels

variable {ts : List Token} {e : Expr}

theorem Expression.joined {ts : List Token} {e : Expr} :
    Expression ts e → Joined Parser.disjunction Conjunction ts e
  | .conjunction h => .operand h
  | .or hl hr => .join hl.joined rfl hr

theorem Conjunction.joined {ts : List Token} {e : Expr} :
    Conjunction ts e → Joined Parser.conjunction Comparison ts e
  | .comparison h => .operand h
  | .and hl hr => .join hl.joined rfl hr

theorem Sum.joined {ts : List Token} {e : Expr} : Sum ts e → Joined Parser.additive Product ts e
  | .product h => .operand h
  | .add hl hr => .join hl.joined rfl hr
  | .sub hl hr => .join hl.joined rfl hr

theorem Product.joined {ts : List Token} {e : Expr} :
    Product ts e → Joined Parser.multiplicative Unary ts e
  | .unary h => .operand h
  | .mul hl hr => .join hl.joined rfl hr
  | .div hl hr => .join hl.joined rfl hr
  | .mod hl hr => .join hl.joined rfl hr

theorem Expression.of_joined (h : Joined Parser.disjunction Conjunction ts e) : Expression ts e := by
  induction h with
  | operand h => exact .conjunction h
  | @join _ _ t _ _ _ _ ht hr ih =>
    cases t <;> cases ht
    exact .or ih hr

theorem Conjunction.of_joined (h : Joined Parser.conjunction Comparison ts e) :
    Conjunction ts e := by
  induction h with
  | operand h => exact .comparison h
  | @join _ _ t _ _ _ _ ht hr ih =>
    cases t <;> cases ht
    exact .and ih hr

theorem Sum.of_joined (h : Joined Parser.additive Product ts e) : Sum ts e := by
  induction h with
  | operand h => exact .product h
  | @join _ _ t _ _ _ _ ht hr ih =>
    cases t with
    | arith op =>
      cases op <;> cases ht
      · exact .add ih hr
      · exact .sub ih hr
    | _ => cases ht

theorem Product.of_joined (h : Joined Parser.multiplicative Unary ts e) : Product ts e := by
  induction h with
  | operand h => exact .unary h
  | @join _ _ t _ _ _ _ ht hr ih =>
    cases t with
    | arith op =>
      cases op <;> cases ht
      · exact .mul ih hr
      · exact .div ih hr
      · exact .mod ih hr
    | _ => cases ht

end Levels

/-! ### First tokens -/

/-- Tokens with which a primary can start. -/
def startsPrimary : Token → Bool
  | .number _ | .ident _ | .leftParen => true
  | _ => false

/-- Tokens with which an expression can start. -/
def startsExpression (t : Token) : Bool := startsPrimary t || t = .arith .sub

/-- Tokens with which a statement can start. -/
def startsStatement (t : Token) : Bool :=
  startsExpression t || t = .semicolon || t = .ifWord || t = .leftBrace

/-- The tokens start with one of a kind. -/
def Starts (first : Token → Bool) (ts : List Token) : Prop :=
  ∃ t us, ts = t :: us ∧ first t = true

namespace Starts

variable {first second : Token → Bool} {ts : List Token}

theorem append (h : Starts first ts) (us : List Token) : Starts first (ts ++ us) := by
  obtain ⟨t, vs, rfl, ht⟩ := h
  exact ⟨t, vs ++ us, rfl, ht⟩

theorem mono (h : Starts first ts) (hle : ∀ t, first t = true → second t = true) :
    Starts second ts := by
  obtain ⟨t, us, rfl, ht⟩ := h
  exact ⟨t, us, rfl, hle t ht⟩

theorem length_pos (h : Starts first ts) : 0 < ts.length := by
  obtain ⟨t, us, rfl, -⟩ := h
  exact Nat.succ_pos _

end Starts

theorem Primary.starts {ts : List Token} {e : Expr} (h : Primary ts e) :
    Starts startsPrimary ts := by
  cases h <;> exact ⟨_, _, rfl, rfl⟩

theorem Unary.starts {ts : List Token} {e : Expr} (h : Unary ts e) :
    Starts startsExpression ts := by
  cases h with
  | primary h => exact h.starts.mono fun t ht => by rw [startsExpression, ht, Bool.true_or]
  | minusLiteral h => exact ⟨_, _, rfl, rfl⟩
  | minus h hne => exact ⟨_, _, rfl, rfl⟩

theorem Joined.starts {operator : Token → Option (Expr → Expr → Expr)}
    {Operand : List Token → Expr → Prop} {first : Token → Bool} {ts : List Token} {e : Expr}
    (h : Joined operator Operand ts e) (hoperand : ∀ ts e, Operand ts e → Starts first ts) :
    Starts first ts := by
  induction h with
  | operand h => exact hoperand _ _ h
  | join _ _ _ ih => exact ih.append _

theorem Sum.starts {ts : List Token} {e : Expr} (h : Sum ts e) : Starts startsExpression ts :=
  h.joined.starts fun _ _ h => h.joined.starts fun _ _ h => h.starts

theorem Comparison.starts {ts : List Token} {e : Expr} (h : Comparison ts e) :
    Starts startsExpression ts := by
  cases h with
  | sum h => exact h.starts
  | cmp op hl hr => exact hl.starts.append _

theorem Expression.starts {ts : List Token} {e : Expr} (h : Expression ts e) :
    Starts startsExpression ts :=
  h.joined.starts fun _ _ h => h.joined.starts fun _ _ h => h.starts

theorem Arguments.starts {ts : List Token} {es : List Expr} (h : Arguments ts es) :
    Starts startsExpression ts := by
  cases h with
  | one h => exact h.starts
  | more h hs => exact h.starts.append _

theorem Block.starts {ts : List Token} {b : Expr} (h : Block ts b) :
    Starts (· = .leftBrace) ts := by
  cases h
  exact ⟨_, _, rfl, rfl⟩

theorem Statement.starts {ts : List Token} {s : Option Expr} (h : Statement ts s) :
    Starts startsStatement ts := by
  cases h with
  | empty => exact ⟨_, _, rfl, rfl⟩
  | conditional hc hb => exact ⟨_, _, rfl, rfl⟩
  | block h => exact h.starts.mono fun t ht => of_decide_eq_true ht ▸ rfl
  | assign name h => exact ⟨_, _, rfl, rfl⟩
  | expression h =>
    refine (h.starts.append _).mono fun t ht => ?_
    rw [startsStatement, ht, Bool.true_or, Bool.true_or, Bool.true_or]

/-! ### Tokens of an expression -/

/-- Tokens that can stand in an expression. -/
def inExpression : Token → Bool
  | .number _ | .ident _ | .arith _ | .cmp _ | .andAnd | .orOr => true
  | .leftParen | .rightParen | .comma => true
  | _ => false

/-- Tokens that can stand in a statement. -/
def inStatement (t : Token) : Bool :=
  inExpression t || t = .ifWord || t = .assign || t = .leftBrace || t = .rightBrace || t = .semicolon

theorem all_join {p : Token → Bool} {ts us : List Token} {t : Token} (hts : ts.all p) (ht : p t)
    (hus : us.all p) : (ts ++ t :: us).all p := by
  rw [List.all_append, List.all_cons, hts, ht, hus]
  rfl

mutual

theorem Expression.all_tokens {ts : List Token} {e : Expr} : Expression ts e → ts.all inExpression
  | .conjunction h => h.all_tokens
  | .or hl hr => all_join hl.all_tokens rfl hr.all_tokens

theorem Conjunction.all_tokens {ts : List Token} {e : Expr} : Conjunction ts e → ts.all inExpression
  | .comparison h => h.all_tokens
  | .and hl hr => all_join hl.all_tokens rfl hr.all_tokens

theorem Comparison.all_tokens {ts : List Token} {e : Expr} : Comparison ts e → ts.all inExpression
  | .sum h => h.all_tokens
  | .cmp _ hl hr => all_join hl.all_tokens rfl hr.all_tokens

theorem Sum.all_tokens {ts : List Token} {e : Expr} : Sum ts e → ts.all inExpression
  | .product h => h.all_tokens
  | .add hl hr => all_join hl.all_tokens rfl hr.all_tokens
  | .sub hl hr => all_join hl.all_tokens rfl hr.all_tokens

theorem Product.all_tokens {ts : List Token} {e : Expr} : Product ts e → ts.all inExpression
  | .unary h => h.all_tokens
  | .mul hl hr => all_join hl.all_tokens rfl hr.all_tokens
  | .div hl hr => all_join hl.all_tokens rfl hr.all_tokens
  | .mod hl hr => all_join hl.all_tokens rfl hr.all_tokens

theorem Unary.all_tokens {ts : List Token} {e : Expr} : Unary ts e → ts.all inExpression
  | .primary h => h.all_tokens
  | .minusLiteral h => h.all_tokens
  | .minus h _ => h.all_tokens

theorem Primary.all_tokens {ts : List Token} {e : Expr} : Primary ts e → ts.all inExpression
  | .number _ => rfl
  | .ident _ => rfl
  | .callNone _ => rfl
  | .call _ h => all_join h.all_tokens rfl rfl
  | .paren h => all_join h.all_tokens rfl rfl

theorem Arguments.all_tokens {ts : List Token} {es : List Expr} :
    Arguments ts es → ts.all inExpression
  | .one h => h.all_tokens
  | .more h hs => all_join h.all_tokens rfl hs.all_tokens

end

theorem all_inStatement {ts : List Token} (h : ts.all inExpression) : ts.all inStatement := by
  rw [List.all_eq_true] at h ⊢
  intro t ht
  rw [inStatement, h t ht]
  rfl

mutual

theorem Statement.all_tokens {ts : List Token} {s : Option Expr} :
    Statement ts s → ts.all inStatement
  | .empty => rfl
  | .conditional hc hb => all_join (all_inStatement hc.all_tokens :) rfl hb.all_tokens
  | .block h => h.all_tokens
  | .assign _ h => all_join (all_inStatement h.all_tokens :) rfl rfl
  | .expression h => all_join (all_inStatement h.all_tokens) rfl rfl

theorem Block.all_tokens {ts : List Token} {b : Expr} : Block ts b → ts.all inStatement
  | .braces h => all_join h.all_tokens rfl rfl

theorem Statements.all_tokens {ts : List Token} {es : List Expr} :
    Statements ts es → ts.all inStatement
  | .nil => rfl
  | .cons h hs => by rw [List.all_append, h.all_tokens, hs.all_tokens]; rfl

end

end Grammar
end FieldScript
