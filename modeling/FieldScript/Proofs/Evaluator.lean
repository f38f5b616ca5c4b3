/-
# What a tree means

A direct evaluator: it walks the tree from left to right and knows nothing of
code, slots and jumps.  It changes a *world*: the fields, found by name, and the
generator of random numbers.

A field is declared by the first assignment to it in the order of the tree,
whether that assignment is carried out or not, so skipping a part of the tree
declares what the part assigns.  Reading a field that is not declared gives
zero, and so does calling a function that is not known, whose arguments are not
evaluated.  `l - r` is the value of `r` minus the value of `l`.

A node is a value or a condition by nature.  A value that stands for a condition
holds if it differs from zero, and a condition that stands for a value is 1 or
0.  A comparison that stands alone or under `&&` holds if the negated comparison
fails, one under `||` if it holds itself; with a NaN these can differ.
-/

import FieldScript.Compiler.Condition
import FieldScript.Expr
import FieldScript.Machine.Lcg
import FieldScript.Proofs.FieldTable
import FieldScript.Single.Elementary

namespace FieldScript

/-- What an evaluation reads and changes. -/
structure World where
  fields : List Field
  generator : Lcg
deriving DecidableEq, Inhabited

namespace World

def read (w : World) (name : String) : Single := Field.read name w.fields

def write (w : World) (name : String) (x : Single) : World :=
  { w with fields := Field.write name x w.fields }

/-- The world with names declared in order. -/
def declare (w : World) (names : List String) : World :=
  { w with fields := Field.declareAll names w.fields }

end World

/-- The result of an arithmetic operator on the values of its operands. -/
def ArithOp.apply (op : ArithOp) (x y : Single) : Single :=
  match op with
  | add => x.add y
  | sub => y.sub x
  | mul => x.mul y
  | div => x.div y
  | mod => x.rem y

/-- Whether a comparison counts as true under a junction. -/
def CmpOp.judge (op : CmpOp) (junction : Junction) (x y : Single) : Bool :=
  match junction with
  | .and => !op.negated.holds x y
  | .or => op.holds x y

/-- A function of values, which may draw from the generator. -/
abbrev Builtin := List Single → Lcg → Single × Lcg

namespace Builtin

def unary (f : Single → Single) : Builtin
  | [x], g => (f x, g)
  | _, g => (Single.zero, g)

def ternary (f : Single → Single → Single → Single) : Builtin
  | [x, y, z], g => (f x y z, g)
  | _, g => (Single.zero, g)

/-- A number between two bounds. -/
def draw : Builtin
  | [lo, hi], g => g.range lo hi
  | _, g => (Single.zero, g)

/-- The function of a name. -/
def named? : String → Option Builtin
  | "sin" => some (unary Single.sin)
  | "cos" => some (unary Single.cos)
  | "tan" => some (unary Single.tan)
  | "sinh" => some (unary Single.sinh)
  | "cosh" => some (unary Single.cosh)
  | "tanh" => some (unary Single.tanh)
  | "asin" => some (unary Single.asin)
  | "acos" => some (unary Single.acos)
  | "atan" => some (unary Single.atan)
  | "sqrt" => some (unary Single.sqrt)
  | "abs" => some (unary Single.abs)
  | "sign" => some (unary Single.sign)
  | "radians" => some (unary Single.toRadians)
  | "degrees" => some (unary Single.toDegrees)
  | "ceil" => some (unary Single.ceil)
  | "floor" => some (unary Single.floor)
  | "round" => some (unary Single.round)
  | "lerp" => some (ternary Single.lerp)
  | "clamp" => some (ternary Single.clamp)
  | "smoothstep" => some (ternary Single.smoothstep)
  | "rand" => some draw
  | _ => none

end Builtin

/-- What a node means, as a value and as a condition under a junction. -/
structure Meaning where
  value : World → Single × World
  condition : Junction → World → Bool × World

namespace Meaning

/-- A node that is a value holds if it differs from zero. -/
def ofValue (value : World → Single × World) : Meaning where
  value := value
  condition _ w :=
    let (x, w) := value w
    (!x.numEq Single.zero, w)

/-- A node that is a condition has the value 1 or 0. -/
def ofCondition (condition : Junction → World → Bool × World) : Meaning where
  value w :=
    let (holds, w) := condition .and w
    (if holds then Single.one else Single.zero, w)
  condition := condition

theorem value_ofCondition {f : Junction → World → Bool × World} {w w' : World} {b : Bool}
    (h : (ofCondition f).condition .and w = (b, w')) :
    (ofCondition f).value w = (if b then Single.one else Single.zero, w') := by
  simp only [ofCondition] at h ⊢
  rw [h]

/-- The world after nodes one after the other. -/
def runAll : List Meaning → World → World
  | [], w => w
  | m :: ms, w => runAll ms (m.value w).2

/-- The values of nodes one after the other. -/
def values : List Meaning → World → List Single × World
  | [], w => ([], w)
  | m :: ms, w =>
    let (x, w) := m.value w
    let (xs, w) := values ms w
    (x :: xs, w)

end Meaning

namespace Expr

mutual

/-- The names that a tree assigns, in order. -/
def assigned : Expr → List String
  | block statements => assignedAll statements
  | conditional condition body => assigned condition ++ assigned body
  | literal _ => []
  | ident _ => []
  | assign name value => assigned value ++ [name]
  | arith _ lhs rhs => assigned lhs ++ assigned rhs
  | call name args => if (Builtin.named? name).isSome then assignedAll args else []
  | cmp _ lhs rhs => assigned lhs ++ assigned rhs
  | or lhs rhs => assigned lhs ++ assigned rhs
  | and lhs rhs => assigned lhs ++ assigned rhs

/-- The names that a row of trees assigns, in order. -/
def assignedAll : List Expr → List String
  | [] => []
  | e :: es => assigned e ++ assignedAll es

end

mutual

/-- What a tree means. -/
def meaning : Expr → Meaning
  | block statements => .ofValue fun w => (Single.zero, Meaning.runAll (meaningAll statements) w)
  | conditional condition body => .ofValue fun w =>
    let (holds, w) := (meaning condition).condition .and w
    (Single.zero, if holds then ((meaning body).value w).2 else w.declare body.assigned)
  | literal x => .ofValue fun w => (x, w)
  | ident name => .ofValue fun w => (w.read name, w)
  | assign name value => .ofValue fun w =>
    let (x, w) := (meaning value).value w
    (x, w.write name x)
  | arith op lhs rhs => .ofValue fun w =>
    let (x, w) := (meaning lhs).value w
    let (y, w) := (meaning rhs).value w
    (op.apply x y, w)
  | call name args => .ofValue fun w =>
    match Builtin.named? name with
    | none => (Single.zero, w)
    | some f =>
      let (xs, w) := Meaning.values (meaningAll args) w
      let (x, generator) := f xs w.generator
      (x, { w with generator })
  | cmp op lhs rhs => .ofCondition fun junction w =>
    let (x, w) := (meaning lhs).value w
    let (y, w) := (meaning rhs).value w
    (op.judge junction x y, w)
  | or lhs rhs => .ofCondition fun _ w =>
    let (holds, w) := (meaning lhs).condition .or w
    if holds then (true, w.declare rhs.assigned) else (meaning rhs).condition .or w
  | and lhs rhs => .ofCondition fun _ w =>
    let (holds, w) := (meaning lhs).condition .and w
    if holds then (meaning rhs).condition .and w else (false, w.declare rhs.assigned)

/-- What the trees of a row mean. -/
def meaningAll : List Expr → List Meaning
  | [] => []
  | e :: es => meaning e :: meaningAll es

end

/-- The world that a tree leaves. -/
def run (e : Expr) (w : World) : World := (e.meaning.value w).2

end Expr
end FieldScript
