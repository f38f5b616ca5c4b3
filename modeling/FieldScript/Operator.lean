/-
# Operators

The five arithmetic and the six comparison operators of the language, with
their symbols, their names and the meaning of a comparison.
-/

import FieldScript.Single.Basic

namespace FieldScript

/-- A binary arithmetic operator. -/
inductive ArithOp where
  | add | sub | mul | div | mod
deriving DecidableEq, Inhabited

namespace ArithOp

def symbol : ArithOp → String
  | add => "+"
  | sub => "-"
  | mul => "*"
  | div => "/"
  | mod => "%"

def name : ArithOp → String
  | add => "Add"
  | sub => "Sub"
  | mul => "Mul"
  | div => "Div"
  | mod => "Mod"

end ArithOp

/-- A comparison operator. -/
inductive CmpOp where
  | eq | ne | lt | gt | le | ge
deriving DecidableEq, Inhabited

namespace CmpOp

def symbol : CmpOp → String
  | eq => "=="
  | ne => "!="
  | lt => "<"
  | gt => ">"
  | le => "<="
  | ge => ">="

def name : CmpOp → String
  | eq => "Eq"
  | ne => "NotEq"
  | lt => "Lt"
  | gt => "Gt"
  | le => "LtEq"
  | ge => "GtEq"

/-- The operator that tests the opposite outcome. -/
def negated : CmpOp → CmpOp
  | eq => ne
  | ne => eq
  | lt => ge
  | gt => le
  | le => gt
  | ge => lt

/-- Whether a comparison holds between two numbers. -/
def holds (op : CmpOp) (x y : Single) : Bool :=
  match op with
  | eq => x.numEq y
  | ne => !x.numEq y
  | lt => x.lt y
  | gt => y.lt x
  | le => x.le y
  | ge => y.le x

/-- Between numbers that are no NaNs the negated operator tests the opposite. -/
theorem holds_negated (op : CmpOp) {x y : Single} (h : x.comparable y = true) :
    op.negated.holds x y = !op.holds x y := by
  have h' : y.comparable x = true := by
    simpa [Single.comparable, and_comm] using h
  cases op <;>
    simp [negated, holds, Single.le_iff_not_lt h, Single.le_iff_not_lt h']

end CmpOp
end FieldScript
