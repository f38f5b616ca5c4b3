/-
# Emitting code

The state of a compilation is the chunk written so far, the jumps that still
have a placeholder for a target, and the log.  A jump is emitted as pending and
patched once: patching a jump that is not pending is a fault of the compiler
and not of the program.
-/

import FieldScript.Chunk
import FieldScript.Log

namespace FieldScript

/-- A broken promise between emitting jumps and patching them. -/
inductive PatchFault where
  | misuse (misuse : Chunk.Misuse)
  /-- A jump that was never emitted as pending, or is patched already. -/
  | notPending (label : Nat)
  /-- A test resolved under another junction than it was emitted for. -/
  | otherJunction (label : Nat)
  /-- A conditional that ends with other pending jumps than it started with. -/
  | unbalanced
deriving DecidableEq, Inhabited

def PatchFault.message : PatchFault → String
  | misuse m => m.message
  | notPending label => "label " ++ toString label ++ " is not a pending jump"
  | otherJunction label => "test at " ++ toString label ++ " resolved under another junction"
  | unbalanced => "placeholder jumps left unpatched"

/-- Why a tree cannot be compiled. -/
inductive CompileError where
  /-- A function called with a wrong number of arguments. -/
  | arity (name : String) (expected found : Nat)
  | patch (fault : PatchFault)
deriving DecidableEq, Inhabited

def CompileError.message : CompileError → String
  | arity name expected found =>
    "compile error: '" ++ name ++ "' takes " ++ toString expected ++ " argument(s), got "
      ++ toString found
  | patch fault => fault.message

structure Emitter where
  chunk : Chunk
  /-- The labels of the jumps whose target is a placeholder, the last first. -/
  pending : List Nat
  log : Array Event
deriving DecidableEq, Inhabited

/-- A step of a compilation; a failed one keeps its log. -/
abbrev Emit := EStateM CompileError Emitter

namespace Emit

/-- An edit of the chunk. -/
def edit {α : Type} (x : Chunk.Edit α) : Emit α := fun ⟨chunk, pending, log⟩ =>
  match x chunk with
  | .ok a chunk => .ok a ⟨chunk, pending, log⟩
  | .error m chunk => .error (.patch (.misuse m)) ⟨chunk, pending, log⟩

/-- Reports an event. -/
def report (e : Event) : Emit Unit := fun ⟨chunk, pending, log⟩ =>
  .ok () ⟨chunk, pending, log.push e⟩

/-- The offset at which the next instruction will start. -/
def label : Emit Nat := edit Chunk.Edit.label

/-- Appends an instruction without an operand. -/
def emit (opcode : Opcode) : Emit Unit := do
  let _ ← edit (Chunk.Edit.emit opcode)

/-- Appends a `push` and gives its offset. -/
def push (value : Single) : Emit Nat := edit (Chunk.Edit.push value)

/-- The slot of a name, if it is declared. -/
def slot? (name : String) : Emit (Option Nat) := do return (← get).chunk.slot? name

/-- The slot of a name, declared if need be. -/
def declare (name : String) : Emit Nat := fun ⟨chunk, pending, log⟩ =>
  let (slot, chunk) := chunk.declare name
  .ok slot ⟨chunk, pending, log⟩

/-- Reads a field. -/
def load (slot : Nat) : Emit Unit := do
  let _ ← edit (Chunk.Edit.load slot)

/-- Writes a field. -/
def store (slot : Nat) : Emit Unit := do
  let _ ← edit (Chunk.Edit.store slot)

/-- Appends a jump with a placeholder for a target and gives its offset. -/
def pendingJump (opcode : Opcode) : Emit Nat := do
  let jump ← edit (Chunk.Edit.jump opcode 0)
  modify fun s => { s with pending := jump :: s.pending }
  return jump

/-- Gives a pending jump its target. -/
def patch (jump target : Nat) : Emit Unit := do
  if (← get).pending.contains jump then
    modify fun s => { s with pending := s.pending.erase jump }
    edit (Chunk.Edit.patch jump target)
  else throw (.patch (.notPending jump))

end Emit
end FieldScript
