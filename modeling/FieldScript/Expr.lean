/-
# Expression trees

A program is one tree.  Blocks, conditionals and assignments are statements by
nature and the other nodes are values, but any node may stand anywhere: a tree
need not come from source text.
-/

import FieldScript.Operator
import FieldScript.Single.Arithmetic

namespace FieldScript

inductive Expr where
  /-- A row of statements. -/
  | block (statements : List Expr)
  /-- `if (condition) body`, without an alternative. -/
  | conditional (condition body : Expr)
  | literal (value : Single)
  /-- A read of a field. -/
  | ident (name : String)
  /-- A write to a field, which the first write declares. -/
  | assign (name : String) (value : Expr)
  | arith (op : ArithOp) (lhs rhs : Expr)
  | call (name : String) (args : List Expr)
  | cmp (op : CmpOp) (lhs rhs : Expr)
  /-- `lhs || rhs`; the right side is skipped once the left decides. -/
  | or (lhs rhs : Expr)
  /-- `lhs && rhs`; the right side is skipped once the left decides. -/
  | and (lhs rhs : Expr)
deriving Inhabited

namespace Expr

/-- The negation of an expression: a literal changes its sign, anything else is
multiplied by `-1`. -/
def negate : Expr → Expr
  | literal x => literal x.neg
  | e => arith .mul (literal Single.one.neg) e

/-- Whether a statement ends with a brace and so needs no semicolon. -/
def isBraced : Expr → Bool
  | block _ => true
  | conditional _ _ => true
  | _ => false

mutual

/-- Equality of trees with literals compared as numbers, so that a NaN differs
from itself and the zeros are equal. -/
def numEq : Expr → Expr → Bool
  | block xs, block ys => numEqAll xs ys
  | conditional c b, conditional c' b' => numEq c c' && numEq b b'
  | literal x, literal y => x.numEq y
  | ident n, ident n' => n = n'
  | assign n v, assign n' v' => n = n' && numEq v v'
  | arith o l r, arith o' l' r' => o = o' && numEq l l' && numEq r r'
  | call n xs, call n' ys => n = n' && numEqAll xs ys
  | cmp o l r, cmp o' l' r' => o = o' && numEq l l' && numEq r r'
  | or l r, or l' r' => numEq l l' && numEq r r'
  | and l r, and l' r' => numEq l l' && numEq r r'
  | _, _ => false

/-- Equality of rows of trees, item by item. -/
def numEqAll : List Expr → List Expr → Bool
  | [], [] => true
  | x :: xs, y :: ys => numEq x y && numEqAll xs ys
  | _, _ => false

end

end Expr
end FieldScript
