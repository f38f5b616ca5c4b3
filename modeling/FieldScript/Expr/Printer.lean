/-
# Trees as source text

Every operator stands in parentheses, so the text shows the shape of the tree.
-/

import FieldScript.Expr
import FieldScript.Single.Text

namespace FieldScript
namespace Expr

/-- A binary operation in parentheses. -/
def parenthesized (lhs symbol rhs : String) : String :=
  "(" ++ lhs ++ " " ++ symbol ++ " " ++ rhs ++ ")"

mutual

/-- The tree as source text. -/
def surface : Expr → String
  | block statements => "\x7b " ++ surfaceStatements statements ++ "\x7d"
  | conditional condition body => "if (" ++ surface condition ++ ") " ++ surface body
  | literal x => x.plain
  | ident name => name
  | assign name value => name ++ " = " ++ surface value
  | arith op lhs rhs => parenthesized (surface lhs) op.symbol (surface rhs)
  | call name args => name ++ "(" ++ ", ".intercalate (surfaceAll args) ++ ")"
  | cmp op lhs rhs => parenthesized (surface lhs) op.symbol (surface rhs)
  | or lhs rhs => parenthesized (surface lhs) "||" (surface rhs)
  | and lhs rhs => parenthesized (surface lhs) "&&" (surface rhs)

/-- Statements, each with a semicolon unless it ends with a brace. -/
def surfaceStatements : List Expr → String
  | [] => ""
  | e :: es => surface e ++ (if e.isBraced then " " else "; ") ++ surfaceStatements es

/-- The texts of a row of trees. -/
def surfaceAll : List Expr → List String
  | [] => []
  | e :: es => surface e :: surfaceAll es

end

end Expr
end FieldScript
