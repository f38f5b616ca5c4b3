/-
# Opcodes

The instruction set of the stack machine, with the byte, the mnemonic, the kind
of operand and the effect on the stack of each instruction.

| opcodes | operand | pops | pushes |
| --- | --- | ---: | ---: |
| `ret`, `jump` | none, target | 0 | 0 |
| `push`, `loadField` | number, field | 0 | 1 |
| `discard`, `storeField` | none, field | 1 | 0 |
| `add` … `mod`, `rand` | none | 2 | 1 |
| `jumpEq` … `jumpNe` | target | 2 | 0 |
| `tan` … `acos`, `sqrt` … `round` | none | 1 | 1 |
| `clamp`, `lerp`, `smoothstep` | none | 3 | 1 |

An instruction is one byte, or five with an operand.
-/

namespace FieldScript

inductive Opcode where
  | ret
  | push
  | discard
  | add
  | sub
  | mul
  | div
  | mod
  | jump
  /-- Jumps when the two values are equal. -/
  | jumpEq
  /-- Jumps when the top is less than the value beneath it. -/
  | jumpLt
  /-- Jumps when the top is greater than the value beneath it. -/
  | jumpGt
  /-- Jumps when the top is at most the value beneath it. -/
  | jumpLe
  /-- Jumps when the top is at least the value beneath it. -/
  | jumpGe
  /-- Jumps when the two values differ. -/
  | jumpNe
  | loadField
  | storeField
  | tan
  | sin
  | cos
  | tanh
  | sinh
  | cosh
  | atan
  | asin
  | acos
  | clamp
  | lerp
  | smoothstep
  | sqrt
  | abs
  | sign
  | radians
  | degrees
  | ceil
  | floor
  | round
  | rand
deriving DecidableEq, Inhabited

/-- What an instruction carries after its opcode. -/
inductive OperandKind where
  | none
  | number
  | target
  | field
deriving DecidableEq, Inhabited

def OperandKind.name : OperandKind → String
  | none => "None"
  | number => "Float"
  | target => "Target"
  | field => "Field"

namespace Opcode

/-- The opcodes in the order of their bytes. -/
def all : List Opcode :=
  [ret, push, discard, add, sub, mul, div, mod, jump, jumpEq, jumpLt, jumpGt, jumpLe, jumpGe,
   jumpNe, loadField, storeField, tan, sin, cos, tanh, sinh, cosh, atan, asin, acos, clamp, lerp,
   smoothstep, sqrt, abs, sign, radians, degrees, ceil, floor, round, rand]

def toByte : Opcode → UInt8
  | ret => 0
  | push => 1
  | discard => 2
  | add => 3
  | sub => 4
  | mul => 5
  | div => 6
  | mod => 7
  | jump => 8
  | jumpEq => 9
  | jumpLt => 10
  | jumpGt => 11
  | jumpLe => 12
  | jumpGe => 13
  | jumpNe => 14
  | loadField => 15
  | storeField => 16
  | tan => 17
  | sin => 18
  | cos => 19
  | tanh => 20
  | sinh => 21
  | cosh => 22
  | atan => 23
  | asin => 24
  | acos => 25
  | clamp => 26
  | lerp => 27
  | smoothstep => 28
  | sqrt => 29
  | abs => 30
  | sign => 31
  | radians => 32
  | degrees => 33
  | ceil => 34
  | floor => 35
  | round => 36
  | rand => 37

/-- The opcode of a byte, if there is one. -/
def ofByte? (b : UInt8) : Option Opcode := all[b.toNat]?

theorem ofByte?_toByte (op : Opcode) : ofByte? op.toByte = some op := by
  cases op <;> rfl

/-- The name in messages and reports. -/
def name : Opcode → String
  | ret => "Return"
  | push => "Push"
  | discard => "Discard"
  | add => "Add"
  | sub => "Sub"
  | mul => "Mul"
  | div => "Div"
  | mod => "Mod"
  | jump => "Jump"
  | jumpEq => "Eq"
  | jumpLt => "Lt"
  | jumpGt => "Gt"
  | jumpLe => "Elt"
  | jumpGe => "Egt"
  | jumpNe => "Neq"
  | loadField => "LoadField"
  | storeField => "StoreField"
  | tan => "Tan"
  | sin => "Sin"
  | cos => "Cos"
  | tanh => "Tanh"
  | sinh => "Sinh"
  | cosh => "Cosh"
  | atan => "Atan"
  | asin => "Asin"
  | acos => "Acos"
  | clamp => "Clamp"
  | lerp => "Lerp"
  | smoothstep => "Smoothstep"
  | sqrt => "Sqrt"
  | abs => "Abs"
  | sign => "Sign"
  | radians => "Radians"
  | degrees => "Degrees"
  | ceil => "Ceil"
  | floor => "Floor"
  | round => "Round"
  | rand => "Rand"

/-- The name in listings and traces. -/
def mnemonic : Opcode → String
  | ret => "RET"
  | push => "PUSH"
  | discard => "DISCARD"
  | add => "ADD"
  | sub => "SUB"
  | mul => "MUL"
  | div => "DIV"
  | mod => "MOD"
  | jump => "JMP"
  | jumpEq => "JEQ"
  | jumpLt => "JLT"
  | jumpGt => "JGT"
  | jumpLe => "JLE"
  | jumpGe => "JGE"
  | jumpNe => "JNE"
  | loadField => "LDFLD"
  | storeField => "STFLD"
  | tan => "TAN"
  | sin => "SIN"
  | cos => "COS"
  | tanh => "TANH"
  | sinh => "SINH"
  | cosh => "COSH"
  | atan => "ATAN"
  | asin => "ASIN"
  | acos => "ACOS"
  | clamp => "CLAMP"
  | lerp => "LERP"
  | smoothstep => "SMOOTHSTEP"
  | sqrt => "SQRT"
  | abs => "ABS"
  | sign => "SIGN"
  | radians => "RADIANS"
  | degrees => "DEGREES"
  | ceil => "CEIL"
  | floor => "FLOOR"
  | round => "ROUND"
  | rand => "RAND"

/-- What the instruction carries. -/
def operandKind : Opcode → OperandKind
  | push => .number
  | jump | jumpEq | jumpLt | jumpGt | jumpLe | jumpGe | jumpNe => .target
  | loadField | storeField => .field
  | _ => .none

/-- Whether the instruction may go on elsewhere than behind itself. -/
def isJump (op : Opcode) : Bool := op.operandKind = .target

/-- Whether the instruction jumps depending on the stack. -/
def isConditional (op : Opcode) : Bool := op.isJump && op ≠ jump

/-- Whether the instruction may go on behind itself. -/
def fallsThrough (op : Opcode) : Bool := op ≠ ret && op ≠ jump

/-- The number of bytes of the instruction. -/
def length (op : Opcode) : Nat := if op.operandKind = .none then 1 else 5

theorem length_pos (op : Opcode) : 0 < op.length := by
  unfold length; split <;> decide

/-- The number of values that the instruction takes off the stack. -/
def pops : Opcode → Nat
  | ret | jump | push | loadField => 0
  | discard | storeField => 1
  | add | sub | mul | div | mod | rand => 2
  | jumpEq | jumpLt | jumpGt | jumpLe | jumpGe | jumpNe => 2
  | clamp | lerp | smoothstep => 3
  | tan | sin | cos | tanh | sinh | cosh | atan | asin | acos | sqrt | abs | sign | radians
  | degrees | ceil | floor | round => 1

/-- The number of values that the instruction puts on the stack. -/
def pushes : Opcode → Nat
  | ret | jump | discard | storeField => 0
  | jumpEq | jumpLt | jumpGt | jumpLe | jumpGe | jumpNe => 0
  | _ => 1

end Opcode
end FieldScript
