/-
# The machine

A machine has an operand stack and a generator.  It runs the code of a chunk
from offset 0 until a return, and reads and writes the fields of the chunk.

Values are pushed from left to right, so of two operands the right one is the
top.  Subtraction and the ordering jumps take the top first: `sub` leaves the
top minus the value beneath it.

A fault ends a run.  What was stored stays stored, and the stack keeps what was
not yet taken off it.
-/

import FieldScript.Chunk.Verifier
import FieldScript.Log
import FieldScript.Machine.Lcg
import FieldScript.Single.Elementary

namespace FieldScript

/-- Why a run ends before a return. -/
inductive Fault where
  | ranOffEnd (offset : Nat)
  | malformed (error : DecodeError)
  | fieldOutOfRange (slot offset : Nat)
  | underflow (offset : Nat)
  | wrongOperand (expected : OperandKind) (found : Option Operand) (offset : Nat)
deriving DecidableEq, Inhabited

def Fault.message : Fault → String
  | ranOffEnd offset => "execution ran off the end of the code at " ++ toString offset
  | malformed error => "malformed bytecode: " ++ error.message
  | fieldOutOfRange slot offset =>
    "field " ++ toString slot ++ " out of range at " ++ toString offset
  | underflow offset => "operand stack underflow at " ++ toString offset
  | wrongOperand expected found offset =>
    let kind := if expected = .number then "float" else "offset"
    "expected " ++ kind ++ " operand at " ++ toString offset ++ ", got " ++ Operand.outline? found

/-- The state of a run: the offset of the next instruction, the stack with its
top first, the fields and the generator. -/
structure RunState where
  offset : Nat
  stack : List Single
  fields : Array Field
  generator : Lcg
deriving DecidableEq, Inhabited

/-- A step of a run; a fault keeps the state. -/
abbrev Exec := EStateM Fault RunState

namespace Exec

def push (x : Single) : Exec Unit := modify fun s => { s with stack := x :: s.stack }

/-- Takes the top off the stack, for the instruction at `offset`. -/
def pop (offset : Nat) : Exec Single := fun s =>
  match s.stack with
  | x :: rest => .ok x { s with stack := rest }
  | [] => .error (.underflow offset) s

/-- Takes two values off the stack, in the order in which they were pushed. -/
def popPair (offset : Nat) : Exec (Single × Single) := do
  let top ← pop offset
  let below ← pop offset
  return (below, top)

/-- Takes three values off the stack, in the order in which they were pushed. -/
def popTriple (offset : Nat) : Exec (Single × Single × Single) := do
  let third ← pop offset
  let (first, second) ← popPair offset
  return (first, second, third)

/-- The number behind the opcode. -/
def number (i : Instr) : Exec Single :=
  match i.operand with
  | some (.number x) => return x
  | found => throw (.wrongOperand .number found i.offset)

/-- The offset behind the opcode. -/
def offset (i : Instr) : Exec Nat :=
  match i.operand with
  | some (.offset n) => return n.toNat
  | found => throw (.wrongOperand .target found i.offset)

/-- Goes on at an offset. -/
def goto (target : Nat) : Exec Unit := modify fun s => { s with offset := target }

/-- Replaces the top by a function of it. -/
def unary (i : Instr) (f : Single → Single) : Exec Unit := do
  push (f (← pop i.offset))

/-- Replaces two values by a function of them. -/
def binary (i : Instr) (f : Single → Single → Single) : Exec Unit := do
  let (x, y) ← popPair i.offset
  push (f x y)

/-- Replaces three values by a function of them. -/
def ternary (i : Instr) (f : Single → Single → Single → Single) : Exec Unit := do
  let (x, y, z) ← popTriple i.offset
  push (f x y z)

/-- Takes two values and jumps if they are in a relation. -/
def jumpIf (i : Instr) (holds : Single → Single → Bool) : Exec Unit := do
  let target ← offset i
  let (below, top) ← popPair i.offset
  if holds below top then goto target

/-- Pushes the value of a field. -/
def load (i : Instr) : Exec Unit := do
  let slot ← offset i
  match (← get).fields[slot]? with
  | some f => push f.value
  | none => throw (.fieldOutOfRange slot i.offset)

/-- Moves the top to a field; the top is taken before the field is looked up. -/
def store (i : Instr) : Exec Unit := do
  let slot ← offset i
  let x ← pop i.offset
  if slot < (← get).fields.size then
    modify fun s => { s with fields := s.fields.modify slot fun f => { f with value := x } }
  else throw (.fieldOutOfRange slot i.offset)

/-- Replaces two bounds by a number drawn between them. -/
def draw (i : Instr) : Exec Unit := do
  let (lo, hi) ← popPair i.offset
  let (x, generator) := (← get).generator.range lo hi
  modify fun s => { s with generator }
  push x

/-- The instruction that comes next. -/
def fetch (code : Array UInt8) : Exec Instr := do
  let offset := (← get).offset
  if offset < code.size then
    match Instr.decodeAt code offset with
    | .ok i => return i
    | .error e => throw (.malformed e)
  else throw (.ranOffEnd offset)

/-- What an instruction does, apart from going on behind itself. -/
def execute (i : Instr) : Exec Unit :=
  match i.opcode with
  | .ret => return ()
  | .push => do push (← number i)
  | .discard => do let _ ← pop i.offset
  | .loadField => load i
  | .storeField => store i
  | .add => binary i Single.add
  | .sub => binary i fun below top => top.sub below
  | .mul => binary i Single.mul
  | .div => binary i Single.div
  | .mod => binary i Single.rem
  | .jump => do goto (← offset i)
  | .jumpEq => jumpIf i Single.numEq
  | .jumpNe => jumpIf i fun below top => !below.numEq top
  | .jumpLt => jumpIf i fun below top => top.lt below
  | .jumpGt => jumpIf i fun below top => below.lt top
  | .jumpLe => jumpIf i fun below top => top.le below
  | .jumpGe => jumpIf i fun below top => below.le top
  | .clamp => ternary i Single.clamp
  | .lerp => ternary i Single.lerp
  | .smoothstep => ternary i Single.smoothstep
  | .rand => draw i
  | .sin => unary i Single.sin
  | .cos => unary i Single.cos
  | .tan => unary i Single.tan
  | .sinh => unary i Single.sinh
  | .cosh => unary i Single.cosh
  | .tanh => unary i Single.tanh
  | .asin => unary i Single.asin
  | .acos => unary i Single.acos
  | .atan => unary i Single.atan
  | .sqrt => unary i Single.sqrt
  | .abs => unary i Single.abs
  | .sign => unary i Single.sign
  | .radians => unary i Single.toRadians
  | .degrees => unary i Single.toDegrees
  | .ceil => unary i Single.ceil
  | .floor => unary i Single.floor
  | .round => unary i Single.round

/-- Executes the next instruction and gives it. -/
def step (code : Array UInt8) : Exec Instr := do
  let i ← fetch code
  goto i.next
  execute i
  return i

end Exec

/-- How a run ends. -/
inductive Ending where
  | returned
  | fault (fault : Fault)
  | outOfSteps
deriving DecidableEq, Inhabited

/-- Takes at most `bound` steps, up to a return or a fault; the log grows by an
event a step. -/
def RunState.run (code : Array UInt8) :
    Nat → RunState → Array Event → Ending × RunState × Array Event
  | 0, s, log => (.outOfSteps, s, log)
  | bound + 1, s, log =>
    match Exec.step code s with
    | .error f s => (.fault f, s, log)
    | .ok i s =>
      let depth := s.stack.length
      if i.opcode = .ret then
        (.returned, s, log.push (.returned i.offset depth))
      else RunState.run code bound s (log.push (.executed i depth s.stack.head?))

structure Machine where
  /-- The stack, its top first. -/
  stack : List Single
  generator : Lcg
deriving DecidableEq, Inhabited

namespace Machine

def defaultSeed : UInt64 := 0x5eed

/-- A machine with an empty stack and a seeded generator. -/
def ofSeed (seed : UInt64) : Machine := ⟨[], ⟨seed⟩⟩

/-- A machine with the default seed. -/
def new : Machine := ofSeed defaultSeed

/-- The number of steps after which a run is given up; no run gets that far in
practice. -/
def stepLimit : Nat := 0x4000000000000000

/-- What a run leaves. -/
structure Run where
  ending : Ending
  machine : Machine
  chunk : Chunk
  log : List Event

/-- Runs a chunk from offset 0 with an empty stack. -/
def run (m : Machine) (c : Chunk) : Run :=
  let log := #[.runStart c.size c.fields.size]
  let (ending, s, log) := RunState.run c.code stepLimit ⟨0, [], c.fields, m.generator⟩ log
  let log := if ending = .returned then log.push (.runEnd s.stack.length) else log
  ⟨ending, ⟨s.stack, s.generator⟩, { c with fields := s.fields }, log.toList⟩

/-- Runs a chunk if it passes the checks. -/
def runChecked (m : Machine) (c : Chunk) : Except VerifyError Run := do
  c.verify
  return m.run c

end Machine
end FieldScript
