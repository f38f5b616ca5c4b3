/-
# Instructions

An instruction is an opcode byte, followed by four bytes of operand if the
opcode takes one.  `decodeAt` reads one instruction and `decodeFrom` the row of
instructions from an offset on, up to the end of the code or the first fault.
-/

import FieldScript.Opcode
import FieldScript.Single.Text
import FieldScript.Word

namespace FieldScript

/-- What stands behind an opcode: a number, or an offset into the code or the
fields. -/
inductive Operand where
  | number (value : Single)
  | offset (value : UInt32)
deriving DecidableEq, Inhabited

namespace Operand

/-- The operand as a word. -/
def word : Operand → UInt32
  | number x => x.bits
  | offset n => n

/-- The operand in a listing. -/
def text : Operand → String
  | number x => x.tagged
  | offset n => toString n.toNat

/-- The operand with its kind. -/
def outline : Operand → String
  | number x => "Float(" ++ x.tagged ++ ")"
  | offset n => "Offset(" ++ toString n.toNat ++ ")"

/-- An operand that may be missing, with its kind. -/
def outline? : Option Operand → String
  | none => "None"
  | some operand => "Some(" ++ operand.outline ++ ")"

/-- The operand that a word stands for. -/
def ofWord? (w : UInt32) : OperandKind → Option Operand
  | .none => none
  | .number => some (number ⟨w⟩)
  | .target => some (offset w)
  | .field => some (offset w)

end Operand

/-- An instruction and the offset at which it starts. -/
structure Instr where
  offset : Nat
  opcode : Opcode
  operand : Option Operand
deriving DecidableEq, Inhabited

namespace Instr

/-- The offset behind the instruction. -/
def next (i : Instr) : Nat := i.offset + i.opcode.length

/-- The offset to which the instruction may jump. -/
def target? (i : Instr) : Option Nat :=
  match i.operand with
  | some (.offset n) => if i.opcode.isJump then some n.toNat else none
  | _ => none

end Instr

/-- Why no instruction can be read at an offset. -/
inductive DecodeError where
  | unknownOpcode (byte : UInt8) (offset : Nat)
  | truncatedOperand (opcode : Opcode) (offset : Nat)
  | outOfRange (offset : Nat)
deriving DecidableEq, Inhabited

namespace DecodeError

/-- A byte as two hexadecimal digits. -/
def hexByte (b : UInt8) : String :=
  Text.padLeft '0' 2 (String.ofList (Nat.toDigits 16 b.toNat))

def message : DecodeError → String
  | unknownOpcode byte offset =>
    "unknown opcode 0x" ++ hexByte byte ++ " at offset " ++ toString offset
  | truncatedOperand opcode offset =>
    "truncated operand for " ++ opcode.name ++ " at offset " ++ toString offset
  | outOfRange offset => "offset " ++ toString offset ++ " is past the end of the code"

end DecodeError

namespace Instr

/-- The word at an offset, if four bytes are there. -/
def wordAt? (code : Array UInt8) (offset : Nat) : Option UInt32 := do
  let a ← code[offset]?
  let b ← code[offset + 1]?
  let c ← code[offset + 2]?
  let d ← code[offset + 3]?
  return Word.ofBytes a b c d

/-- The instruction at an offset. -/
def decodeAt (code : Array UInt8) (offset : Nat) : Except DecodeError Instr :=
  match code[offset]? with
  | none => .error (.outOfRange offset)
  | some byte =>
    match Opcode.ofByte? byte with
    | none => .error (.unknownOpcode byte offset)
    | some opcode =>
      if opcode.operandKind = .none then .ok ⟨offset, opcode, none⟩
      else
        match wordAt? code (offset + 1) with
        | none => .error (.truncatedOperand opcode offset)
        | some w => .ok ⟨offset, opcode, Operand.ofWord? w opcode.operandKind⟩

/-- The instructions from an offset on, and the fault at which they end if they
do not reach the end of the code. -/
def decodeFrom (code : Array UInt8) (offset : Nat) : List Instr × Option DecodeError :=
  if offset < code.size then
    match decodeAt code offset with
    | .error e => ([], some e)
    | .ok i =>
      let (rest, fault) := decodeFrom code (offset + i.opcode.length)
      (i :: rest, fault)
  else ([], none)
termination_by code.size - offset
decreasing_by have := i.opcode.length_pos; omega

end Instr
end FieldScript
