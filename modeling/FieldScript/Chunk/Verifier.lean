/-
# Checking a chunk

A chunk passes if its whole code can be read, every jump goes to the start of an
instruction, every field exists, and the depth of the stack is well defined:
on all ways through the code an instruction is reached with one depth, which is
enough for what it pops, and no way runs off the end.

Depths are found by walking the code from offset 0.  An instruction is put on
the worklist when it gets its depth, so it is looked at once, and a walk of as
many steps as there are instructions is complete.
-/

import FieldScript.Chunk

namespace FieldScript

/-- Why a chunk must not be run. -/
inductive VerifyError where
  | decode (error : DecodeError)
  /-- A jump that does not go to the start of an instruction. -/
  | badTarget (offset target : Nat)
  | badField (offset : Nat) (opcode : Opcode) (slot fields : Nat)
  | underflow (offset : Nat) (opcode : Opcode) (needed depth : Nat)
  /-- Two ways to an instruction that leave different depths. -/
  | depthMismatch (offset first second : Nat)
  | fallsOffEnd (offset : Nat)
deriving DecidableEq, Inhabited

def VerifyError.message (e : VerifyError) : String :=
  "verify error: " ++ match e with
  | decode error => error.message
  | badTarget offset target =>
    "jump at " ++ toString offset ++ " targets " ++ toString target
      ++ ", which does not start an instruction"
  | badField offset opcode slot fields =>
    opcode.name ++ " at " ++ toString offset ++ " addresses field " ++ toString slot
      ++ " of " ++ toString fields
  | underflow offset opcode needed depth =>
    "stack underflow at " ++ toString offset ++ ": " ++ opcode.name ++ " pops " ++ toString needed
      ++ ", depth is " ++ toString depth
  | depthMismatch offset first second =>
    "stack depth at " ++ toString offset ++ " is " ++ toString first ++ " on one path and "
      ++ toString second ++ " on another"
  | fallsOffEnd offset => "execution runs off the end of the code after " ++ toString offset

namespace Verifier

/-- For every offset of the code, the index of the instruction that starts there. -/
def indexTable (size : Nat) (instrs : List Instr) : Array (Option Nat) :=
  instrs.zipIdx.foldl (fun table (i, k) => table.setIfInBounds i.offset (some k))
    (Array.replicate size none)

/-- The index of the instruction that starts at an offset. -/
def indexAt? (table : Array (Option Nat)) (offset : Nat) : Option Nat := table[offset]?.join

/-- Checks the operand of an instruction. -/
def checkOperand (table : Array (Option Nat)) (fields : Nat) (i : Instr) :
    Except VerifyError Unit :=
  match i.opcode.operandKind, i.operand with
  | .target, some (.offset n) =>
    if (indexAt? table n.toNat).isSome then .ok () else .error (.badTarget i.offset n.toNat)
  | .field, some (.offset n) =>
    if n.toNat < fields then .ok () else .error (.badField i.offset i.opcode n.toNat fields)
  | _, _ => .ok ()

/-- A walk through the code: the depth with which each instruction is reached,
as far as known, and the instructions still to be looked at. -/
structure Walk where
  depths : Array (Option Nat)
  worklist : List Nat
deriving DecidableEq, Inhabited

/-- The walk before its first step: the first instruction is reached with an
empty stack. -/
def Walk.start (count : Nat) : Walk :=
  ⟨(Array.replicate count none).setIfInBounds 0 (some 0), [0]⟩

/-- The depth with which an instruction is reached. -/
def Walk.depth? (w : Walk) (k : Nat) : Option Nat := w.depths[k]?.join

/-- Notes that the instruction with index `k` is reached with a depth. -/
def Walk.reach (instrs : Array Instr) (depth : Nat) (w : Walk) (k : Nat) :
    Except VerifyError Walk :=
  match w.depth? k with
  | none => .ok ⟨w.depths.setIfInBounds k (some depth), k :: w.worklist⟩
  | some seen =>
    if seen = depth then .ok w
    else .error (.depthMismatch ((instrs[k]?.map (·.offset)).getD 0) seen depth)

/-- The indices of the instructions that can follow, the jump target first. -/
def successors (instrs : Array Instr) (table : Array (Option Nat)) (k : Nat) (i : Instr) :
    Except VerifyError (List Nat) :=
  let jumps := (i.target?.bind (indexAt? table)).toList
  if i.opcode.fallsThrough then
    if k + 1 < instrs.size then .ok (jumps ++ [k + 1]) else .error (.fallsOffEnd i.offset)
  else .ok jumps

/-- Looks at the instruction with index `k`, which is not on the worklist any
more. -/
def Walk.visit (instrs : Array Instr) (table : Array (Option Nat)) (w : Walk) (k : Nat) :
    Except VerifyError Walk :=
  match instrs[k]? with
  | none => .ok w
  | some i =>
    let depth := (w.depth? k).getD 0
    if depth < i.opcode.pops then
      .error (.underflow i.offset i.opcode i.opcode.pops depth)
    else do
      let next ← successors instrs table k i
      next.foldlM (Walk.reach instrs (depth - i.opcode.pops + i.opcode.pushes)) w

/-- Takes at most `bound` steps of a walk. -/
def Walk.run (instrs : Array Instr) (table : Array (Option Nat)) :
    Nat → Walk → Except VerifyError Walk
  | 0, w => .ok w
  | bound + 1, w =>
    match w.worklist with
    | [] => .ok w
    | k :: rest => do
      let w' ← Walk.visit instrs table ⟨w.depths, rest⟩ k
      Walk.run instrs table bound w'

end Verifier

/-- Checks that a chunk can be run without a fault. -/
def Chunk.verify (c : Chunk) : Except VerifyError Unit :=
  match c.instrs? with
  | .error e => .error (.decode e)
  | .ok [] => .error (.fallsOffEnd 0)
  | .ok instrs => do
    let table := Verifier.indexTable c.size instrs
    instrs.forM (Verifier.checkOperand table c.fields.size)
    let _ ← Verifier.Walk.run instrs.toArray table instrs.length
      (Verifier.Walk.start instrs.length)
    return ()

end FieldScript
