/-
# The verifier accepts what all paths agree on

A *path* starts at offset 0 and goes from instruction to instruction as the
control flow can: to the target of a jump, and to what stands behind anything
but a return or a plain jump.  Code with a loop has infinitely many of them, and
the verifier looks at each instruction once.

What it finds out is nevertheless said of all paths.  If it accepts, then by
induction on a path the walk has the path's depth at the instruction where the
path ends (`Verified.depth_of_path`).  The other way around, the depths with
which paths get to the instructions fit together (`WellFormed.fits_reachedWith`),
and a walk among depths that fit does not fail.  Instructions that no path gets
to have only to be readable, with operands that exist.
-/

import FieldScript.Proofs.Soundness

namespace FieldScript

/-- A path along the control flow from offset 0, its last instruction first. -/
inductive Path (instrs : List Instr) : List Instr → Prop
  | start {i : Instr} (hi : i ∈ instrs) (hzero : i.offset = 0) : Path instrs [i]
  | step {i j : Instr} {p : List Instr} (h : Path instrs (i :: p)) (hj : j ∈ instrs)
      (hleads : i.Leads j) : Path instrs (j :: i :: p)

/-- The depth that the stack effects of instructions add up to. -/
def runningDepth : List Instr → Int
  | [] => 0
  | i :: p => runningDepth p - i.opcode.pops + i.opcode.pushes

namespace Chunk

open Verifier

/-- Code that decodes to instructions, whose operands exist and on whose paths the
depths are in order. -/
structure WellFormed (c : Chunk) (instrs : List Instr) : Prop where
  decode : c.instrs? = .ok instrs
  nonempty : instrs ≠ []
  /-- Every jump goes to the start of an instruction. -/
  targets : ∀ i ∈ instrs, i.opcode.isJump = true → ∃ j ∈ instrs, i.target? = some j.offset
  /-- Every field that is addressed exists. -/
  fields : ∀ i ∈ instrs, i.opcode.operandKind = .field →
    ∃ slot, i.operand = some (.offset slot) ∧ slot.toNat < c.fields.size
  /-- No path gets to an instruction with less than it pops. -/
  enough : ∀ i p, Path instrs (i :: p) → (i.opcode.pops : Int) ≤ runningDepth p
  /-- All paths get to an instruction with one depth. -/
  agree : ∀ i p q, Path instrs (i :: p) → Path instrs (i :: q) → runningDepth p = runningDepth q
  /-- No path runs off the end. -/
  ends : ∀ i p, Path instrs (i :: p) → i.opcode.fallsThrough = true →
    ∃ j ∈ instrs, i.next = j.offset

theorem runningDepth_cons {i : Instr} {p : List Instr} {d : Nat} (hd : runningDepth p = d)
    (hpops : i.opcode.pops ≤ d) : runningDepth (i :: p) = i.opcode.depthAfter d := by
  rw [runningDepth, hd, Opcode.depthAfter]
  omega

/-- The check of an operand, said of the instructions instead of the table. -/
theorem checkOperand_iff {c : Chunk} {instrs : List Instr} (hdecode : c.instrs? = .ok instrs)
    {i : Instr} (hi : i ∈ instrs) :
    checkOperand (indexTable c.size instrs) c.fields.size i = .ok () ↔
      (i.opcode.isJump = true → ∃ j ∈ instrs, i.target? = some j.offset) ∧
        (i.opcode.operandKind = .field →
          ∃ slot, i.operand = some (.offset slot) ∧ slot.toNat < c.fields.size) := by
  have hindex : ∀ o, (indexAt? (indexTable c.size instrs) o).isSome = true ↔
      ∃ j ∈ instrs, o = j.offset := by
    intro o
    rw [Option.isSome_iff_exists]
    constructor
    · rintro ⟨k, hk⟩
      obtain ⟨j, hj, hoffset⟩ := (indexAt?_iff hdecode).1 hk
      exact ⟨j, List.mem_of_getElem? hj, hoffset.symm⟩
    · rintro ⟨j, hj, hoffset⟩
      obtain ⟨k, hk⟩ := List.mem_iff_getElem?.1 hj
      exact ⟨k, (indexAt?_iff hdecode).2 ⟨j, hk, hoffset.symm⟩⟩
  obtain ⟨l, hl, _⟩ := Instr.exists_line_of_decodeAt ((contiguous_of_instrs? hdecode).2 i hi)
  rw [hl, checkOperand_eq_ok_iff, hindex, Line.target?_instr, Line.instr_opcode, Opcode.isJump,
    decide_eq_true_iff]
  refine and_congr (imp_congr_right fun hkind => ?_) (imp_congr_right fun hkind => ?_)
  · simp only [if_pos hkind, Option.some.injEq]
  · simp [Line.instr, Operand.ofWord?, hkind]

namespace Verified

variable {c : Chunk} {instrs : List Instr} {w : Walk} (h : c.Verified instrs w)

include h

/-- **The walk has found the depth of every path.** -/
theorem depth_of_path {i : Instr} {p : List Instr} (hp : Path instrs (i :: p)) :
    ∃ k d, instrs[k]? = some i ∧ w.depth? k = some d ∧ runningDepth p = d := by
  have hrow := (contiguous_of_instrs? h.decode).1
  generalize hq : i :: p = q at hp
  induction hp generalizing i p with
  | @start j hj hzero =>
    cases hq
    obtain ⟨k, hk⟩ := List.mem_iff_getElem?.1 hj
    have hpos : 0 < instrs.length := List.length_pos_of_ne_nil h.nonempty
    have hget : instrs[0]? = some instrs[0] := List.getElem?_eq_getElem hpos
    obtain rfl : k = 0 := hrow.eq_of_offset hk hget (by rw [hzero, hrow.offset_zero hget])
    exact ⟨0, 0, hk, h.explored.2.2, rfl⟩
  | @step i' j p' _ hj hleads ih =>
    cases hq
    obtain ⟨k, d, hk, hd, hdepth⟩ := ih rfl
    obtain ⟨hpops, next, hnext, hfollow⟩ := h.settled hd hk
    obtain ⟨m, hm⟩ := List.mem_iff_getElem?.1 hj
    have hmem : m ∈ next := (mem_successors_iff h.decode hk hnext).2 ⟨j, hm, hleads⟩
    exact ⟨m, _, hm, hfollow m hmem, runningDepth_cons hdepth hpops⟩

theorem wellFormed : c.WellFormed instrs where
  decode := h.decode
  nonempty := h.nonempty
  targets i hi := ((checkOperand_iff h.decode hi).1 (h.operands i hi)).1
  fields i hi := ((checkOperand_iff h.decode hi).1 (h.operands i hi)).2
  enough i p hp := by
    obtain ⟨k, d, hk, hd, hdepth⟩ := h.depth_of_path hp
    rw [hdepth]
    exact Int.ofNat_le.2 (h.settled hd hk).1
  agree i p q hp hq := by
    obtain ⟨k, d, hk, hd, hdepth⟩ := h.depth_of_path hp
    obtain ⟨k', d', hk', hd', hdepth'⟩ := h.depth_of_path hq
    obtain rfl : k = k' := (contiguous_of_instrs? h.decode).1.eq_of_offset hk hk' rfl
    obtain rfl : d = d' := Option.some.inj (hd.symm.trans hd')
    rw [hdepth, hdepth']
  ends i p hp := by
    obtain ⟨k, d, hk, hd, _⟩ := h.depth_of_path hp
    obtain ⟨_, next, hnext, _⟩ := h.settled hd hk
    exact (exists_successors_iff h.decode hk).1 ⟨next, hnext⟩

end Verified

/-- A path gets to the instruction of an index with a depth. -/
def ReachedWith (instrs : List Instr) (k d : Nat) : Prop :=
  ∃ i p, instrs[k]? = some i ∧ Path instrs (i :: p) ∧ runningDepth p = d

namespace WellFormed

variable {c : Chunk} {instrs : List Instr} (h : c.WellFormed instrs)

include h

theorem fits_reachedWith :
    Walk.Fits instrs.toArray (indexTable c.size instrs) (ReachedWith instrs) where
  unique := by
    rintro k d d' ⟨i, p, hi, hp, hd⟩ ⟨i', q, hi', hq, hd'⟩
    obtain rfl : i = i' := Option.some.inj (hi.symm.trans hi')
    have := h.agree i p q hp hq
    omega
  follow := by
    rintro k d i ⟨i', p, hi', hp, hd⟩ hi
    rw [List.getElem?_toArray] at hi
    obtain rfl : i = i' := Option.some.inj (hi.symm.trans hi')
    have hpops : i.opcode.pops ≤ d := by
      have := h.enough i p hp
      omega
    obtain ⟨next, hnext⟩ := (exists_successors_iff h.decode hi).2 (h.ends i p hp)
    refine ⟨hpops, next, hnext, fun m hm => ?_⟩
    obtain ⟨j, hj, hleads⟩ := (mem_successors_iff h.decode hi hnext).1 hm
    exact ⟨j, i :: p, hj, .step hp (List.mem_of_getElem? hj) hleads, runningDepth_cons hd hpops⟩

/-- The walk has no reason to fail. -/
theorem exists_verified : ∃ w, c.Verified instrs w := by
  have hrow := (contiguous_of_instrs? h.decode).1
  have hpos : 0 < instrs.toArray.size := List.length_pos_of_ne_nil h.nonempty
  obtain ⟨hexplored, _, hstart⟩ := Walk.explored_start (indexTable c.size instrs) hpos
  have hlabelled : Walk.Labelled (ReachedWith instrs) (Walk.start instrs.toArray.size) := by
    intro k d hd
    obtain ⟨rfl, rfl⟩ := (hstart k d).1 hd
    have hget : instrs[0]? = some instrs[0] := List.getElem?_eq_getElem hpos
    exact ⟨_, [], hget, .start (List.getElem_mem hpos) (hrow.offset_zero hget), rfl⟩
  obtain ⟨w, hw⟩ := Walk.exists_run (lt_size_of_indexAt? h.decode) h.fits_reachedWith hexplored
    hlabelled
  refine ⟨w, h.decode, h.nonempty, fun i hi => ?_, hw⟩
  exact (checkOperand_iff h.decode hi).2 ⟨h.targets i hi, h.fields i hi⟩

end WellFormed

/-- **The verifier accepts exactly the well-formed chunks.** -/
theorem verify_iff_wellFormed (c : Chunk) :
    c.verify = .ok () ↔ ∃ instrs, c.WellFormed instrs := by
  rw [verify_eq_ok_iff]
  constructor
  · rintro ⟨instrs, w, hw⟩
    exact ⟨instrs, hw.wellFormed⟩
  · rintro ⟨instrs, h⟩
    obtain ⟨w, hw⟩ := h.exists_verified
    exact ⟨instrs, w, hw⟩

end Chunk
end FieldScript
