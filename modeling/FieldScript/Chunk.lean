/-
# Chunks

A chunk is a program ready to run: the bytes of its code and the table of named
fields that the code addresses by slot.  Code grows at the end; what is already
there changes only in the operand of a jump.  Fields are never removed, so a
slot once given for a name stays with it.

Edits that break a rule of the encoding fail, and keep what they had written up
to then.
-/

import FieldScript.Instr

namespace FieldScript

/-- A named number. -/
structure Field where
  name : String
  value : Single
deriving DecidableEq, Inhabited

structure Chunk where
  code : Array UInt8
  fields : Array Field
deriving DecidableEq, Inhabited

namespace Chunk

/-- The field that every new chunk has in slot 0. -/
def positionName : String := "position.x"

/-- The chunk without code. -/
def empty : Chunk := ⟨#[], #[⟨positionName, Single.zero⟩]⟩

/-- The number of bytes of code. -/
def size (c : Chunk) : Nat := c.code.size

/-- The instruction at an offset. -/
def instrAt (c : Chunk) (offset : Nat) : Except DecodeError Instr := Instr.decodeAt c.code offset

/-- The instructions from the start on, and the fault at which they end. -/
def instrs (c : Chunk) : List Instr × Option DecodeError := Instr.decodeFrom c.code 0

/-- The instructions, if the whole code can be read. -/
def instrs? (c : Chunk) : Except DecodeError (List Instr) :=
  match c.instrs with
  | (is, none) => .ok is
  | (_, some e) => .error e

/-! ### Fields -/

/-- The first slot of a name. -/
def slot? (c : Chunk) (name : String) : Option Nat := c.fields.findIdx? (·.name = name)

/-- The value in a slot. -/
def valueAt? (c : Chunk) (slot : Nat) : Option Single := c.fields[slot]?.map (·.value)

/-- The value of a name. -/
def value? (c : Chunk) (name : String) : Option Single := (c.slot? name).bind c.valueAt?

/-- The slot of a name, which gets a new one with value zero if it has none. -/
def declare (c : Chunk) (name : String) : Nat × Chunk :=
  match c.slot? name with
  | some slot => (slot, c)
  | none => (c.fields.size, { c with fields := c.fields.push ⟨name, Single.zero⟩ })

/-- The chunk with another value in a slot; nothing changes without that slot. -/
def setValue (c : Chunk) (slot : Nat) (value : Single) : Chunk :=
  { c with fields := c.fields.modify slot fun f => { f with value } }

/-- The chunk with a value for a name, declared if need be. -/
def assign (c : Chunk) (name : String) (value : Single) : Chunk :=
  let (slot, c) := c.declare name
  c.setValue slot value

/-! ### Code -/

/-- A rule of the encoding that an edit breaks. -/
inductive Misuse where
  /-- An operand for an opcode that takes none. -/
  | unwantedOperand (opcode : Opcode) (operand : Operand)
  /-- A number for an offset, or an offset for a number. -/
  | wrongOperand (opcode : Opcode) (operand : Operand)
  | notAJump (opcode : Opcode)
  | noJumpAt (label : Nat)
  | outOfBounds
deriving DecidableEq, Inhabited

def Misuse.message : Misuse → String
  | unwantedOperand opcode operand =>
    opcode.name ++ " takes no operand, got " ++ operand.outline
  | wrongOperand opcode operand =>
    opcode.name ++ " expects a " ++ opcode.operandKind.name ++ " operand, got "
      ++ Operand.outline? (some operand)
  | notAJump opcode => opcode.name ++ " is not a jump"
  | noJumpAt label => "label " ++ toString label ++ " does not start a jump instruction"
  | outOfBounds => "out of bounds"

/-- An edit of a chunk; a failed one keeps what it had written. -/
abbrev Edit := EStateM Misuse Chunk

namespace Edit

/-- The offset at which the next instruction will start. -/
def label : Edit Nat := do return (← get).size

/-- Writes bytes at the end of the code. -/
def write (bytes : List UInt8) : Edit Unit :=
  modify fun c => { c with code := c.code ++ bytes }

/-- Appends an instruction and gives its offset.  The opcode is written before
the operand is looked at; an operand that is missing is written as zero. -/
def append (opcode : Opcode) (operand : Option Operand) : Edit Nat := do
  let start ← label
  write [opcode.toByte]
  match opcode.operandKind, operand with
  | .none, none => pure ()
  | .none, some operand => throw (.unwantedOperand opcode operand)
  | .number, some (.number x) => write (Word.bytes x.bits)
  | .target, some (.offset n) => write (Word.bytes n)
  | .field, some (.offset n) => write (Word.bytes n)
  | _, some operand => throw (.wrongOperand opcode operand)
  | _, none => write (Word.bytes 0)
  return start

/-- Appends an instruction with no operand, or a zero for one. -/
def emit (opcode : Opcode) : Edit Nat := append opcode none

def push (value : Single) : Edit Nat := append .push (some (.number value))

def load (slot : Nat) : Edit Nat := append .loadField (some (.offset slot.toUInt32))

def store (slot : Nat) : Edit Nat := append .storeField (some (.offset slot.toUInt32))

/-- Appends a jump to `target`. -/
def jump (opcode : Opcode) (target : Nat) : Edit Nat := do
  if opcode.isJump then append opcode (some (.offset target.toUInt32))
  else throw (.notAJump opcode)

/-- The code with bytes written over it from an offset on. -/
def overwrite (code : Array UInt8) (offset : Nat) : List UInt8 → Array UInt8
  | [] => code
  | b :: bs => overwrite (code.setIfInBounds offset b) (offset + 1) bs

/-- Turns the jump at `label` to `target`; only its operand changes. -/
def patch (label target : Nat) : Edit Unit := do
  let c ← get
  match c.code[label]? with
  | none => throw .outOfBounds
  | some byte =>
    if (Opcode.ofByte? byte).any Opcode.isJump then
      if label + 5 ≤ c.code.size then
        modify fun c => { c with code := overwrite c.code (label + 1) (Word.bytes target.toUInt32) }
      else throw .outOfBounds
    else throw (.noJumpAt label)

end Edit
end Chunk
end FieldScript
