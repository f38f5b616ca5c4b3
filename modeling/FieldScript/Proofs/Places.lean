/-
# A parser does not look at places

A parser decides by the tokens alone what it reads and returns; where a token
stands only shows in the place of a fault.  Two cursors with the same tokens are
parsed in the same way (`Placeless`): both runs return one value and leave the
same tokens, or both fail with one fault.

The same tokens are equally many, so the bounds on loops and nesting agree too,
and each procedure follows from its parts.
-/

import FieldScript.Proofs.Lookahead

namespace FieldScript
namespace Parser

/-- Two runs return the same value and leave the same tokens, or fail with the
same fault. -/
def Matches {α : Type} : EStateM.Result ParseError Cursor α → EStateM.Result ParseError Cursor α → Prop
  | .ok a c, .ok b d => a = b ∧ c.tokens = d.tokens
  | .error e _, .error e' _ => e.fault = e'.fault
  | _, _ => False

/-- The parser makes the same of the same tokens, wherever they stand. -/
def Placeless {α : Type} (p : Parser α) : Prop :=
  ∀ c d : Cursor, c.tokens = d.tokens → Matches (p c) (p d)

namespace Placeless

section Rules

variable {α β : Type} {p q : Parser α} {f : α → Parser β}

theorem pure (a : α) : Placeless (Pure.pure a) := fun _ _ h => ⟨rfl, h⟩

theorem fail (fault : ParseFault) : Placeless (Parser.fail fault : Parser α) := fun _ _ _ => rfl

/-- **Two parsers in a row.** -/
theorem bind (hp : Placeless p) (hf : ∀ a, Placeless (f a)) : Placeless (p >>= f) := by
  intro c d h
  have hmatches := hp c d h
  cases hc : p c with
  | ok a c' =>
    cases hd : p d with
    | ok b d' =>
      rw [hc, hd] at hmatches
      obtain ⟨rfl, htokens⟩ := hmatches
      rw [bind_of_ok hc, bind_of_ok hd]
      exact hf a c' d' htokens
    | error e d' =>
      rw [hc, hd] at hmatches
      exact hmatches.elim
  | error e c' =>
    cases hd : p d with
    | ok b d' =>
      rw [hc, hd] at hmatches
      exact hmatches.elim
    | error e' d' =>
      rw [hc, hd] at hmatches
      rw [bind_of_error hc, bind_of_error hd]
      exact hmatches

/-- A parser may go on as its cursor says, if that depends on the tokens only. -/
theorem get {f : Cursor → Parser β} (hsame : ∀ c d : Cursor, c.tokens = d.tokens → f c = f d)
    (hf : ∀ c, Placeless (f c)) : Placeless (MonadState.get >>= f) := by
  intro c d h
  change Matches (f c c) (f d d)
  rw [hsame c d h]
  exact hf d c d h

theorem peek_congr {c d : Cursor} (h : c.tokens = d.tokens) : c.peek = d.peek := by
  rw [Cursor.peek_eq_head?, Cursor.peek_eq_head?, h]

theorem peek : Placeless Parser.peek :=
  get (fun c d h => by rw [peek_congr h]) fun c => .pure c.peek

theorem remaining : Placeless Parser.remaining := by
  refine get (fun c d h => ?_) fun c => .pure c.rest.length
  rw [Cursor.length_rest, Cursor.length_rest, h]

theorem advance : Placeless Parser.advance := by
  intro c d h
  refine ⟨rfl, ?_⟩
  rw [Cursor.tokens_advance, Cursor.tokens_advance, h]

theorem unexpected (what : Expectation) : Placeless (Parser.unexpected what : Parser α) :=
  peek.bind fun _ => .fail _

theorem expect (t : Token) : Placeless (Parser.expect t) := by
  refine peek.bind fun next => ?_
  split
  · exact advance
  · exact unexpected _

/-- Whether a statement can start is seen from the next token. -/
theorem atEnd (hp : Placeless p) (hq : Placeless q) :
    Placeless (do if (← MonadState.get).atEnd then p else q) := by
  refine get (fun c d h => ?_) fun c => ?_
  · rw [Cursor.atEnd, Cursor.atEnd, peek_congr h]
  · split
    · exact hp
    · exact hq

end Rules

/-! ### Expressions -/

section Expressions

variable {combine : Token → Option (Expr → Expr → Expr)} {operand inner : Parser Expr}

theorem chain (h : Placeless operand) (bound : Nat) (lhs : Expr) :
    Placeless (Parser.chain combine operand bound lhs) := by
  induction bound generalizing lhs with
  | zero => exact .pure lhs
  | succ bound ih =>
    refine peek.bind fun next => ?_
    split
    · exact .pure lhs
    · exact advance.bind fun _ => h.bind fun rhs => ih _

theorem leftAssoc (h : Placeless operand) : Placeless (Parser.leftAssoc combine operand) :=
  h.bind fun lhs => remaining.bind fun bound => h.chain bound lhs

theorem comparison (h : Placeless operand) : Placeless (Parser.comparison operand) := by
  refine h.bind fun lhs => peek.bind fun next => ?_
  split
  · refine advance.bind fun _ => h.bind fun rhs => peek.bind fun next => ?_
    split
    · exact (Placeless.fail _).bind fun _ => .pure _
    · exact .pure _
  · exact .pure lhs

theorem unary (h : Placeless operand) (bound : Nat) : Placeless (Parser.unary operand bound) := by
  induction bound with
  | zero => exact h
  | succ bound ih =>
    refine peek.bind fun next => ?_
    split
    · exact advance.bind fun _ => ih.bind fun _ => .pure _
    · exact h

theorem argumentsTail (h : Placeless inner) (bound : Nat) (args : List Expr) :
    Placeless (Parser.argumentsTail inner bound args) := by
  induction bound generalizing args with
  | zero => exact unexpected _
  | succ bound ih =>
    refine h.bind fun arg => peek.bind fun next => ?_
    split
    · exact advance.bind fun _ => ih _
    · exact advance.bind fun _ => .pure _
    · exact unexpected _

theorem arguments (h : Placeless inner) : Placeless (Parser.arguments inner) := by
  refine (expect _).bind fun _ => peek.bind fun next => ?_
  split
  · exact advance.bind fun _ => .pure []
  · exact remaining.bind fun bound => h.argumentsTail (bound + 1) []

theorem primary (h : Placeless inner) : Placeless (Parser.primary inner) := by
  refine peek.bind fun next => ?_
  split
  · exact advance.bind fun _ => .pure _
  · refine advance.bind fun _ => peek.bind fun next => ?_
    split
    · exact h.arguments.bind fun _ => .pure _
    · exact .pure _
  · exact advance.bind fun _ => h.bind fun _ => (expect _).bind fun _ => .pure _
  · exact unexpected _

theorem levels (h : Placeless inner) : Placeless (Parser.levels inner) := by
  have hunary : Placeless (do Parser.unary (Parser.primary inner) (← Parser.remaining)) :=
    remaining.bind h.primary.unary
  exact hunary.leftAssoc.leftAssoc.comparison.leftAssoc.leftAssoc

theorem nested (depth : Nat) : Placeless (Parser.nested depth) := by
  induction depth with
  | zero => exact unexpected _
  | succ depth ih => exact ih.levels

theorem expression : Placeless Parser.expression := remaining.bind fun bound => nested (bound + 1)

end Expressions

/-! ### Statements -/

section Statements

variable {inner : Parser (Option Expr)}

theorem statements (h : Placeless inner) (bound : Nat) (done : List Expr) :
    Placeless (Parser.statements inner bound done) := by
  induction bound generalizing done with
  | zero => exact unexpected _
  | succ bound ih =>
    refine peek.bind fun next => ?_
    split
    · exact advance.bind fun _ => .pure _
    · exact atEnd (unexpected _) (h.bind fun next => ih _)

theorem block (h : Placeless inner) : Placeless (Parser.block inner) :=
  (expect _).bind fun _ => remaining.bind fun bound =>
    (h.statements (bound + 1) []).bind fun _ => .pure _

theorem conditional (h : Placeless inner) : Placeless (Parser.conditional inner) := by
  refine advance.bind fun _ => (expect _).bind fun _ => expression.bind fun condition =>
    (expect _).bind fun _ => peek.bind fun next => ?_
  split
  · exact h.block.bind fun _ => .pure _
  · exact unexpected _

theorem simpleStatement : Placeless Parser.simpleStatement := by
  refine get (fun c d h => ?_) fun c => ?_
  · rw [peek_congr h, Cursor.peekSecond_eq_head?, Cursor.peekSecond_eq_head?, h]
  · split
    · exact advance.bind fun _ => advance.bind fun _ => expression.bind fun _ =>
        (expect _).bind fun _ => .pure _
    · exact expression.bind fun _ => (expect _).bind fun _ => .pure _

theorem statementOver (h : Placeless inner) : Placeless (Parser.statementOver inner) := by
  refine peek.bind fun next => ?_
  split
  · exact advance.bind fun _ => .pure none
  · exact h.conditional.bind fun _ => .pure _
  · exact h.block.bind fun _ => .pure _
  · exact simpleStatement.bind fun _ => .pure _

theorem statementNested (depth : Nat) : Placeless (Parser.statementNested depth) := by
  induction depth with
  | zero => exact unexpected _
  | succ depth ih => exact ih.statementOver

theorem statement : Placeless Parser.statement :=
  remaining.bind fun bound => statementNested (bound + 1)

theorem programTail (bound : Nat) (done : List Expr) :
    Placeless (Parser.programTail bound done) := by
  induction bound generalizing done with
  | zero => exact .pure _
  | succ bound ih => exact atEnd (.pure _) (statement.bind fun next => ih _)

/-- **A program is parsed in the same way wherever its tokens stand.** -/
theorem program : Placeless Parser.program :=
  remaining.bind fun bound => (programTail bound []).bind fun _ => .pure _

end Statements
end Placeless
end Parser
end FieldScript
