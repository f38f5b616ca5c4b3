/-
# Compiling a tree

Each node of a tree can be compiled in three ways: as a statement, which leaves
the stack as it was, as a value, which leaves one number on it, and as a
condition, which leaves the stack as it was and jumps.  A node has one way of
its own, and the others follow from it:

| own way | statement | value | condition |
| --- | --- | --- | --- |
| value | value, discard | value | value, compared with zero |
| statement | statement | statement, push 0 | value, compared with zero |
| condition | value, discard | push 1 or push 0 | condition |

An assignment is a statement whose value is the field that it wrote.  A read of
a field that is not declared, and a call of a function that is not known, have
the value zero and are reported.
-/

import FieldScript.Compiler.Condition
import FieldScript.Expr
import FieldScript.Intrinsic

namespace FieldScript

/-- The opcode of an arithmetic operator. -/
def ArithOp.opcode : ArithOp → Opcode
  | add => .add
  | sub => .sub
  | mul => .mul
  | div => .div
  | mod => .mod

/-- The three ways to compile a node. -/
structure Codegen where
  statement : Emit Unit
  value : Emit Unit
  condition : Junction → Emit Pending

namespace Codegen

/-- A value tested against zero. -/
def nonzero (value : Emit Unit) (junction : Junction) : Emit Pending := do
  value
  let _ ← Emit.push Single.zero
  Emit.test .ne junction

/-- A value that nobody reads. -/
def discarded (value : Emit Unit) : Emit Unit := do
  value
  Emit.emit .discard

/-- The number 1 if a condition holds and 0 if it fails. -/
def truthValue (condition : Junction → Emit Pending) : Emit Unit := do
  let pending ← condition .and
  let onTrue ← Emit.push Single.one
  let skip ← Emit.pendingJump .jump
  let onFalse ← Emit.push Single.zero
  let stop ← Emit.label
  Emit.patch skip stop
  Emit.resolve pending ⟨onTrue, onFalse⟩ .and

/-- A body that runs if a condition holds. -/
def conditional (condition : Junction → Emit Pending) (body : Emit Unit) : Emit Unit := do
  let before := (← get).pending
  let pending ← condition .and
  let bodyStart ← Emit.label
  body
  let skip ← Emit.pendingJump .jump
  let stop ← Emit.label
  Emit.patch skip stop
  Emit.resolve pending ⟨bodyStart, stop⟩ .and
  if (← get).pending ≠ before then throw (.patch .unbalanced)
  Emit.report (.compiledConditional bodyStart stop)

/-- A node that is a value. -/
def ofValue (value : Emit Unit) : Codegen := ⟨discarded value, value, nonzero value⟩

/-- A node that is a statement, with the value it has. -/
def ofStatement (statement value : Emit Unit) : Codegen := ⟨statement, value, nonzero value⟩

/-- A node that is a condition. -/
def ofCondition (condition : Junction → Emit Pending) : Codegen :=
  ⟨discarded (truthValue condition), truthValue condition, condition⟩

/-- A read of a field. -/
def read (name : String) : Emit Unit := do
  match (← Emit.slot? name) with
  | some slot => Emit.load slot
  | none =>
    Emit.report (.undeclaredRead name)
    let _ ← Emit.push Single.zero

/-- A write to a field, which declares it. -/
def write (name : String) (value : Emit Unit) : Emit Unit := do
  value
  Emit.store (← Emit.declare name)

/-- A call of a function. -/
def call (name : String) (args : List Codegen) : Emit Unit := do
  match intrinsic? name with
  | none =>
    Emit.report (.unknownCall name)
    let _ ← Emit.push Single.zero
  | some f =>
    if args.length ≠ f.arity then throw (.arity name f.arity args.length)
    args.forM Codegen.value
    Emit.emit f.opcode

/-- Statements one after the other, with the value zero. -/
def zeroAfter (statement : Emit Unit) : Emit Unit := do
  statement
  let _ ← Emit.push Single.zero

end Codegen

namespace Expr

mutual

/-- The three ways to compile a tree. -/
def codegen : Expr → Codegen
  | block statements =>
    let body := (codegenAll statements).forM Codegen.statement
    .ofStatement body (Codegen.zeroAfter body)
  | conditional condition body =>
    let statement := Codegen.conditional (codegen condition).condition (codegen body).statement
    .ofStatement statement (Codegen.zeroAfter statement)
  | literal x => .ofValue do
    let _ ← Emit.push x
  | ident name => .ofValue (Codegen.read name)
  | assign name value =>
    let statement := Codegen.write name (codegen value).value
    .ofStatement statement do
      statement
      Emit.load (← Emit.declare name)
  | arith op lhs rhs => .ofValue do
    (codegen lhs).value
    (codegen rhs).value
    Emit.emit op.opcode
  | call name args => .ofValue (Codegen.call name (codegenAll args))
  | cmp op lhs rhs => .ofCondition fun junction => do
    (codegen lhs).value
    (codegen rhs).value
    Emit.test op junction
  | or lhs rhs => .ofCondition fun _ =>
    Emit.branch .or (codegen lhs).condition (codegen rhs).condition
  | and lhs rhs => .ofCondition fun _ =>
    Emit.branch .and (codegen lhs).condition (codegen rhs).condition

/-- The ways to compile a row of trees. -/
def codegenAll : List Expr → List Codegen
  | [] => []
  | e :: es => codegen e :: codegenAll es

end

/-- A whole program: a statement and a return. -/
def emitProgram (e : Expr) : Emit Unit := do
  e.codegen.statement
  Emit.emit .ret
  let s ← get
  if s.pending ≠ [] then throw (.patch .unbalanced)
  Emit.report (.compiledChunk s.chunk.size s.chunk.fields.size)

/-- What a compilation gives: a chunk or the reason why there is none, and the
events on the way. -/
structure Compiled where
  result : Except CompileError Chunk
  log : List Event

/-- Compiles a tree behind the code of a chunk, with its fields. -/
def compileInto (e : Expr) (chunk : Chunk) : Compiled :=
  match e.emitProgram ⟨chunk, [], #[]⟩ with
  | .ok _ s => ⟨.ok s.chunk, s.log.toList⟩
  | .error fault s => ⟨.error fault, s.log.toList⟩

/-- Compiles a tree into a chunk of its own. -/
def compile (e : Expr) : Compiled := e.compileInto Chunk.empty

end Expr
end FieldScript
