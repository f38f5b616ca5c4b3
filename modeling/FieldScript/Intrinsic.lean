/-
# Intrinsic functions

The functions that a script can call, each with its opcode and its number of
arguments.
-/

import FieldScript.Opcode

namespace FieldScript

structure Intrinsic where
  opcode : Opcode
  arity : Nat
deriving DecidableEq, Inhabited

/-- The function of a name. -/
def intrinsic? : String → Option Intrinsic
  | "sin" => some ⟨.sin, 1⟩
  | "cos" => some ⟨.cos, 1⟩
  | "tan" => some ⟨.tan, 1⟩
  | "sinh" => some ⟨.sinh, 1⟩
  | "cosh" => some ⟨.cosh, 1⟩
  | "tanh" => some ⟨.tanh, 1⟩
  | "asin" => some ⟨.asin, 1⟩
  | "acos" => some ⟨.acos, 1⟩
  | "atan" => some ⟨.atan, 1⟩
  | "sqrt" => some ⟨.sqrt, 1⟩
  | "abs" => some ⟨.abs, 1⟩
  | "sign" => some ⟨.sign, 1⟩
  | "radians" => some ⟨.radians, 1⟩
  | "degrees" => some ⟨.degrees, 1⟩
  | "ceil" => some ⟨.ceil, 1⟩
  | "floor" => some ⟨.floor, 1⟩
  | "round" => some ⟨.round, 1⟩
  | "lerp" => some ⟨.lerp, 3⟩
  | "clamp" => some ⟨.clamp, 3⟩
  | "smoothstep" => some ⟨.smoothstep, 3⟩
  | "rand" => some ⟨.rand, 2⟩
  | _ => none

end FieldScript
