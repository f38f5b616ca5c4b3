/-
# Listings and summaries of a chunk

A listing has one line an instruction and one a field; instructions that a jump
goes to are marked.  A summary has the sizes and the values of the fields.
-/

import FieldScript.Chunk

namespace FieldScript
namespace Chunk

/-- The line above and below the heading. -/
def rule : String := String.ofList (List.replicate 40 '═') ++ "\n"

/-- The line above an instruction that a jump goes to. -/
def targetRule : String := "      ┌" ++ String.ofList (List.replicate 34 '─') ++ "\n"

/-- A field's value, after its name. -/
def fieldText (f : Field) : String := f.name ++ " = " ++ f.value.places

/-- The instruction without its offset. -/
def instrText (c : Chunk) (i : Instr) : String :=
  let mnemonic := Text.padRight 11 i.opcode.mnemonic ++ " "
  match i.opcode.operandKind, i.operand with
  | .none, _ => i.opcode.mnemonic
  | _, none => i.opcode.mnemonic
  | .target, some (.offset n) =>
    let arrow := if n.toNat ≤ i.offset then "↑" else "↓"
    mnemonic ++ arrow ++ " (→ " ++ Text.zeroPad 4 n.toNat ++ ")"
  | .field, some (.offset n) =>
    mnemonic ++ Text.padRight 4 (toString n.toNat) ++ " ; "
      ++ (c.fields[n.toNat]?.map (·.name)).getD "???"
  | _, some operand => mnemonic ++ operand.text

/-- The lines of an instruction. -/
def instrLines (c : Chunk) (targets : List Nat) (i : Instr) : String :=
  let offset := Text.zeroPad 4 i.offset
  let start := if targets.contains i.offset then targetRule ++ offset ++ " ► " else offset ++ "   "
  start ++ c.instrText i ++ "\n"

/-- The line of a field with its slot. -/
def fieldLine (f : Field) (slot : Nat) : String :=
  "  [" ++ Text.padLeft ' ' 3 (toString slot) ++ "] " ++ fieldText f ++ "\n"

/-- The listing of instructions that make up the whole code. -/
def listingOf (c : Chunk) (instrs : List Instr) : String :=
  let targets := instrs.filterMap Instr.target?
  rule ++ " function: " ++ toString c.size ++ " bytes, " ++ toString instrs.length
    ++ " instructions, " ++ toString c.fields.size ++ " locals\n" ++ rule
    ++ String.join (instrs.map (c.instrLines targets))
    ++ "\n locals:\n"
    ++ String.join (c.fields.toList.zipIdx.map fun (f, slot) => fieldLine f slot)

/-- The listing of a chunk whose code can be read. -/
def listing (c : Chunk) : Except DecodeError String := c.instrs?.map c.listingOf

/-- The sizes in bytes, and a line a field. -/
def summary (c : Chunk) : String :=
  let fieldBytes := 4 * c.fields.size
  "bytecode size: " ++ toString c.size ++ "\n"
    ++ "locals size: " ++ toString fieldBytes ++ "\n"
    ++ "combined: " ++ toString (fieldBytes + c.size) ++ "\n"
    ++ String.join (c.fields.toList.map fun f => fieldText f ++ "\n")

end Chunk
end FieldScript
