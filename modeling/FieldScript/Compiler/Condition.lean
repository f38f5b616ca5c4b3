/-
# Jumping code for conditions

A condition is compiled without computing its truth value.  Each test becomes a
conditional jump whose target is not yet known, and the tests are resolved once
the places to go on when the condition holds and when it fails are known.

Under `and` a test jumps away when it fails and falls through when it holds;
under `or` it jumps away when it holds.  A test that stands alone counts as
standing under `and`.  Behind its right operand a node has one more jump for
the case in which both operands fall through.

| node | left operand holds / fails | right operand holds / fails | behind it |
| --- | --- | --- | --- |
| `l || r` | `onTrue` / right operand | `onTrue` / falls through | `onFalse` |
| `l && r` | right operand / `onFalse` | falls through / `onFalse` | `onTrue` |
-/

import FieldScript.Compiler.Emitter
import FieldScript.Operator

namespace FieldScript

/-- How a test takes part in a condition. -/
inductive Junction where
  | and | or
deriving DecidableEq, Inhabited

/-- The jumps of a condition that wait for their targets, shaped like the
condition. -/
inductive Pending where
  /-- The jump of one test, emitted for a junction. -/
  | test (jump : Nat) (junction : Junction)
  /-- Two operands, where the code of the right one starts, and the jump behind
  both. -/
  | branch (junction : Junction) (left : Pending) (rightStart : Nat) (right : Pending) (exit : Nat)
deriving DecidableEq, Inhabited

/-- Where to go on when a condition holds and when it fails. -/
structure Exits where
  onTrue : Nat
  onFalse : Nat
deriving DecidableEq, Inhabited

namespace CmpOp

/-- The jump taken when the comparison of the value beneath the top with the top
holds.  Ordering jumps test the top against the value beneath it, so they turn
the comparison around. -/
def jumpOpcode : CmpOp → Opcode
  | eq => .jumpEq
  | ne => .jumpNe
  | lt => .jumpGt
  | gt => .jumpLt
  | le => .jumpGe
  | ge => .jumpLe

end CmpOp

namespace Emit

/-- The jump of a test of two values on the stack. -/
def test (op : CmpOp) (junction : Junction) : Emit Pending := do
  let opcode := match junction with
    | .and => op.negated.jumpOpcode
    | .or => op.jumpOpcode
  return .test (← pendingJump opcode) junction

/-- The code of two conditions joined. -/
def branch (junction : Junction) (left right : Junction → Emit Pending) : Emit Pending := do
  let left ← left junction
  let rightStart ← label
  let right ← right junction
  let exit ← pendingJump .jump
  return .branch junction left rightStart right exit

/-- Gives all jumps of a condition their targets. -/
def resolve : Pending → Exits → Junction → Emit Unit
  | .test jump emitted, exits, junction => do
    if emitted ≠ junction then throw (.patch (.otherJunction jump))
    match junction with
    | .and => patch jump exits.onFalse
    | .or => patch jump exits.onTrue
  | .branch .or left rightStart right exit, exits, _ => do
    resolve left ⟨exits.onTrue, rightStart⟩ .or
    resolve right exits .or
    patch exit exits.onFalse
  | .branch .and left rightStart right exit, exits, _ => do
    resolve left ⟨rightStart, exits.onFalse⟩ .and
    resolve right exits .and
    patch exit exits.onTrue

end Emit
end FieldScript
