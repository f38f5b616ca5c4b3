/-
# Verified code does not fault

The table of stack effects agrees with what the machine pops and pushes
(`Exec.execute_line`).  So a machine that is at an instruction with the depth
that the walk found there completes a step, and is then at an instruction with
the depth found there again (`Chunk.Verified.step`).  By induction on the number
of steps no run of a verified chunk faults, whatever its fields hold and however
often it goes around in a loop.
-/

import FieldScript.Proofs.Stepping
import FieldScript.Proofs.Walk

namespace FieldScript

/-! ### What a completed instruction does to the depth -/

/-- A state follows another one with some values popped and some pushed; the
fields stay as many as they were. -/
structure Moves (pops pushes : Nat) (s t : RunState) : Prop where
  depth : t.stack.length = s.stack.length - pops + pushes
  fields : t.fields.size = s.fields.size

theorem exists_pair {α : Type} : ∀ {xs : List α}, 2 ≤ xs.length → ∃ y x rest, xs = y :: x :: rest
  | y :: x :: rest, _ => ⟨y, x, rest, rfl⟩

theorem exists_triple {α : Type} :
    ∀ {xs : List α}, 3 ≤ xs.length → ∃ z y x rest, xs = z :: y :: x :: rest
  | z :: y :: x :: rest, _ => ⟨z, y, x, rest, rfl⟩

namespace Exec

section Families

variable {s : RunState} {i : Instr}

theorem exists_unary (f : Single → Single) (h : 1 ≤ s.stack.length) :
    ∃ t, unary i f s = .ok () t ∧ Moves 1 1 s t ∧ t.offset = s.offset := by
  obtain ⟨x, rest, hstack⟩ := List.exists_cons_of_length_pos h
  exact ⟨_, unary_apply f hstack, ⟨by rw [hstack]; rfl, rfl⟩, rfl⟩

theorem exists_binary (f : Single → Single → Single) (h : 2 ≤ s.stack.length) :
    ∃ t, binary i f s = .ok () t ∧ Moves 2 1 s t ∧ t.offset = s.offset := by
  obtain ⟨y, x, rest, hstack⟩ := exists_pair h
  exact ⟨_, binary_apply f hstack, ⟨by rw [hstack]; rfl, rfl⟩, rfl⟩

theorem exists_ternary (f : Single → Single → Single → Single) (h : 3 ≤ s.stack.length) :
    ∃ t, ternary i f s = .ok () t ∧ Moves 3 1 s t ∧ t.offset = s.offset := by
  obtain ⟨z, y, x, rest, hstack⟩ := exists_triple h
  exact ⟨_, ternary_apply f hstack, ⟨by rw [hstack]; rfl, rfl⟩, rfl⟩

theorem exists_draw (h : 2 ≤ s.stack.length) :
    ∃ t, draw i s = .ok () t ∧ Moves 2 1 s t ∧ t.offset = s.offset := by
  obtain ⟨y, x, rest, hstack⟩ := exists_pair h
  exact ⟨_, draw_apply hstack, ⟨by rw [hstack]; rfl, rfl⟩, rfl⟩

theorem exists_jumpIf {w : UInt32} (holds : Single → Single → Bool)
    (hop : i.operand = some (.offset w)) (h : 2 ≤ s.stack.length) :
    ∃ t, jumpIf i holds s = .ok () t ∧ Moves 2 0 s t ∧
      (t.offset = s.offset ∨ t.offset = w.toNat) := by
  obtain ⟨y, x, rest, hstack⟩ := exists_pair h
  refine ⟨_, jumpIf_apply holds hop hstack, ⟨by rw [hstack]; rfl, rfl⟩, ?_⟩
  cases holds x y
  · exact .inl rfl
  · exact .inr rfl

theorem exists_load {w : UInt32} (hop : i.operand = some (.offset w))
    (hslot : w.toNat < s.fields.size) :
    ∃ t, load i s = .ok () t ∧ Moves 0 1 s t ∧ t.offset = s.offset :=
  ⟨_, load_apply hop (Array.getElem?_eq_getElem hslot), ⟨rfl, rfl⟩, rfl⟩

theorem exists_store {w : UInt32} (hop : i.operand = some (.offset w))
    (hslot : w.toNat < s.fields.size) (h : 1 ≤ s.stack.length) :
    ∃ t, store i s = .ok () t ∧ Moves 1 0 s t ∧ t.offset = s.offset := by
  obtain ⟨x, rest, hstack⟩ := List.exists_cons_of_length_pos h
  exact ⟨_, store_apply hop hstack hslot, ⟨by rw [hstack]; rfl, Array.size_modify⟩, rfl⟩

end Families

/-- **The stack effect of every opcode is what the machine does.**  With enough
on the stack, and a field that exists, a line completes; it goes on behind
itself unless it jumps. -/
theorem execute_line (l : Line) (offset : Nat) {s : RunState}
    (hpops : l.opcode.pops ≤ s.stack.length)
    (hfield : l.opcode.operandKind = .field → l.word.toNat < s.fields.size) :
    ∃ t, execute (l.instr offset) s = .ok () t ∧ Moves l.opcode.pops l.opcode.pushes s t ∧
      (l.opcode ≠ .jump ∧ t.offset = s.offset ∨
        l.opcode.operandKind = .target ∧ t.offset = l.word.toNat) := by
  obtain ⟨op, w⟩ := l
  -- the families give where the machine goes on as an equation
  have hstay {x : Exec Unit} {pops pushes : Nat} (hne : op ≠ .jump)
      (h : ∃ t, x s = .ok () t ∧ Moves pops pushes s t ∧ t.offset = s.offset) :
      ∃ t, x s = .ok () t ∧ Moves pops pushes s t ∧
        (op ≠ .jump ∧ t.offset = s.offset ∨ op.operandKind = .target ∧ t.offset = w.toNat) := by
    obtain ⟨t, hx, hmoves, hoffset⟩ := h
    exact ⟨t, hx, hmoves, .inl ⟨hne, hoffset⟩⟩
  have hjump (c : CmpOp) (h : 2 ≤ s.stack.length) :
      ∃ t, execute (Line.instr offset ⟨c.jumpOpcode, w⟩) s = .ok () t ∧ Moves 2 0 s t ∧
        (c.jumpOpcode ≠ .jump ∧ t.offset = s.offset ∨
          c.jumpOpcode.operandKind = .target ∧ t.offset = w.toNat) := by
    rw [execute_cmp]
    obtain ⟨t, hx, hmoves, hoffset⟩ := exists_jumpIf c.holds (operand_jumpOpcode c offset w) h
    exact ⟨t, hx, hmoves, hoffset.imp (⟨by cases c <;> simp [CmpOp.jumpOpcode], ·⟩)
      (⟨by cases c <;> rfl, ·⟩)⟩
  cases op
  case ret => exact ⟨s, rfl, ⟨rfl, rfl⟩, .inl ⟨by simp, rfl⟩⟩
  case jump => exact ⟨_, rfl, ⟨rfl, rfl⟩, .inr ⟨rfl, rfl⟩⟩
  case push => exact ⟨_, rfl, ⟨rfl, rfl⟩, .inl ⟨by simp, rfl⟩⟩
  case discard =>
    obtain ⟨x, rest, hstack⟩ := List.exists_cons_of_length_pos hpops
    exact ⟨_, bind_of_ok (pop_apply offset hstack), ⟨by rw [hstack]; rfl, rfl⟩, .inl ⟨by simp, rfl⟩⟩
  case loadField => exact hstay (by simp) (exists_load rfl (hfield rfl))
  case storeField => exact hstay (by simp) (exists_store rfl (hfield rfl) hpops)
  case add | mul | div | mod => exact hstay (by simp) (exists_binary _ hpops)
  case sub => exact hstay (by simp) (exists_binary (fun x y => y.sub x) hpops)
  case rand => exact hstay (by simp) (exists_draw hpops)
  case clamp | lerp | smoothstep => exact hstay (by simp) (exists_ternary _ hpops)
  case jumpEq => exact hjump .eq hpops
  case jumpNe => exact hjump .ne hpops
  case jumpLt => exact hjump .gt hpops
  case jumpGt => exact hjump .lt hpops
  case jumpLe => exact hjump .ge hpops
  case jumpGe => exact hjump .le hpops
  all_goals exact hstay (by simp) (exists_unary _ hpops)

end Exec

/-! ### What the walk says about a run -/

namespace Chunk

open Verifier

namespace Verified

variable {c : Chunk} {instrs : List Instr} {w : Walk} (h : c.Verified instrs w)

include h

theorem explored :
    Walk.Explored instrs.toArray (indexTable c.size instrs) w ∧ w.worklist = [] ∧
      w.depth? 0 = some 0 := by
  obtain ⟨hstart, hpending, hzero⟩ := Walk.explored_start (indexTable c.size instrs)
    (List.length_pos_of_ne_nil h.nonempty : 0 < instrs.toArray.size)
  obtain ⟨hexplored, hnil, hmono⟩ := hstart.run (lt_size_of_indexAt? h.decode) (Nat.le_of_eq hpending) h.walk
  exact ⟨hexplored, hnil, hmono 0 0 ((hzero 0 0).2 ⟨rfl, rfl⟩)⟩

/-- Every instruction that was reached is settled. -/
theorem settled {k d : Nat} {i : Instr} (hd : w.depth? k = some d) (hi : instrs[k]? = some i) :
    i.opcode.pops ≤ d ∧ ∃ next, successors instrs.toArray (indexTable c.size instrs) k i = .ok next ∧
      ∀ j ∈ next, w.depth? j = some (i.opcode.depthAfter d) := by
  obtain ⟨hexplored, hnil, _⟩ := h.explored
  refine (hexplored.settled k d hd).resolve_left ?_ i (by rwa [List.getElem?_toArray])
  rw [hnil]
  exact List.not_mem_nil

end Verified

/-- The machine is at an instruction, with the depth that the walk found there. -/
structure AtDepth (c : Chunk) (instrs : List Instr) (w : Walk) (s : RunState) : Prop where
  fields : s.fields.size = c.fields.size
  depth : ∃ k i, instrs[k]? = some i ∧ i.offset = s.offset ∧ w.depth? k = some s.stack.length

/-- The start of a run is an instruction, which the walk found with nothing on the
stack. -/
theorem Verified.atStart {c : Chunk} {instrs : List Instr} {w : Walk} (h : c.Verified instrs w)
    {fields : Array Field} (hfields : fields.size = c.fields.size) (generator : Lcg) :
    AtDepth c instrs w ⟨0, [], fields, generator⟩ := by
  obtain ⟨i, is, rfl⟩ := List.exists_cons_of_ne_nil h.nonempty
  exact ⟨hfields, 0, i, rfl, (contiguous_of_instrs? h.decode).1.1, h.explored.2.2⟩

/-- Where an instruction goes on is an instruction with the depth that it leaves:
the next one if it goes on behind itself, and its target if it jumps. -/
theorem Verified.follow {c : Chunk} {instrs : List Instr} {w : Walk} (h : c.Verified instrs w)
    {k d offset : Nat} {l : Line} (hd : w.depth? k = some d) (hk : instrs[k]? = some (l.instr offset))
    (hret : l.opcode ≠ .ret) {target : Nat}
    (htarget : l.opcode ≠ .jump ∧ target = offset + l.opcode.length ∨
      l.opcode.operandKind = .target ∧ target = l.word.toNat) :
    ∃ k' i, instrs[k']? = some i ∧ i.offset = target ∧ (l.instr offset).Leads i ∧
      w.depth? k' = some (l.opcode.depthAfter d) := by
  obtain ⟨_, next, hnext, hdepth⟩ := h.settled hd hk
  have hleads : ∃ (k' : Nat) (i : Instr), instrs[k']? = some i ∧ i.offset = target ∧
      (l.instr offset).Leads i := by
    rcases htarget with ⟨hjump, rfl⟩ | ⟨hkind, rfl⟩
    · have hfalls : l.opcode.fallsThrough = true := by simp [Opcode.fallsThrough, hret, hjump]
      obtain ⟨i, hi, hbehind⟩ := (exists_successors_iff h.decode hk).1 ⟨next, hnext⟩ hfalls
      obtain ⟨k', hk'⟩ := List.mem_iff_getElem?.1 hi
      exact ⟨k', i, hk', hbehind.symm, .inr ⟨hfalls, hbehind⟩⟩
    · have hcheck := checkOperand_eq_ok_iff.1 (h.operands _ (List.mem_of_getElem? hk))
      obtain ⟨k', hk'⟩ := Option.isSome_iff_exists.1 (hcheck.1 hkind)
      obtain ⟨i, hi, hoffset⟩ := (indexAt?_iff h.decode).1 hk'
      exact ⟨k', i, hi, hoffset, .inl (by rw [Line.target?_instr, if_pos hkind, hoffset])⟩
  obtain ⟨k', i, hi, hoffset, hleads⟩ := hleads
  have hmem : k' ∈ next := (mem_successors_iff h.decode hk hnext).2 ⟨i, hi, hleads⟩
  exact ⟨k', i, hi, hoffset, hleads, hdepth k' hmem⟩

/-- **One step of verified code** executes the instruction where the machine is.
Unless it returned, the machine is then at an instruction with the depth found
there, to which the control flow leads from the one it executed. -/
theorem Verified.step {c : Chunk} {instrs : List Instr} {w : Walk} (h : c.Verified instrs w)
    {s : RunState} (hs : AtDepth c instrs w s) :
    ∃ i t, Exec.step c.code s = .ok i t ∧ i ∈ instrs ∧ i.offset = s.offset ∧
      (i.opcode ≠ .ret → AtDepth c instrs w t ∧ ∃ j ∈ instrs, j.offset = t.offset ∧ i.Leads j) := by
  obtain ⟨k, i, hk, hoffset, hdepth⟩ := hs.depth
  have hmem := List.mem_of_getElem? hk
  have hdecode := (contiguous_of_instrs? h.decode).2 i hmem
  rw [hoffset] at hdecode
  obtain ⟨l, rfl, _⟩ := Instr.exists_line_of_decodeAt hdecode
  have hcheck := checkOperand_eq_ok_iff.1 (h.operands _ hmem)
  obtain ⟨t, hexec, hmoves, htarget⟩ := Exec.execute_line l s.offset
    (s := { s with offset := s.offset + l.opcode.length }) (h.settled hdepth hk).1
    (hs.fields ▸ hcheck.2)
  refine ⟨_, t, Exec.step_eq hdecode hexec, hmem, rfl, fun hret => ?_⟩
  obtain ⟨k', j, hj, hjoffset, hleads, hafter⟩ := h.follow hdepth hk hret htarget
  refine ⟨⟨hmoves.fields.trans hs.fields, k', j, hj, hjoffset, ?_⟩,
    j, List.mem_of_getElem? hj, hjoffset, hleads⟩
  rw [hmoves.depth]
  exact hafter

/-- **No run of verified code faults,** and wherever it is when its steps run out
it is at an instruction with the depth found there. -/
theorem Verified.run {c : Chunk} {instrs : List Instr} {w : Walk} (h : c.Verified instrs w)
    {s : RunState} (hs : AtDepth c instrs w s) (n : Nat) (log : Array Event) :
    (∀ fault, (RunState.run c.code n s log).1 ≠ .fault fault) ∧
      ((RunState.run c.code n s log).1 = .outOfSteps →
        AtDepth c instrs w (RunState.run c.code n s log).2.1) := by
  induction n generalizing s log with
  | zero =>
    refine ⟨?_, fun _ => hs⟩
    rintro fault ⟨⟩
  | succ n ih =>
    obtain ⟨i, t, hstep, _, _, hat⟩ := h.step hs
    rw [RunState.run, hstep]
    dsimp only
    by_cases hret : i.opcode = .ret
    · rw [if_pos hret]
      constructor
      · rintro fault ⟨⟩
      · rintro ⟨⟩
    · rw [if_neg hret]
      exact ih (hat hret).1 _

/-- **Verifier soundness.**  A chunk that passes has instructions and a walk
through them such that, whatever its fields hold and whatever the generator is,
no number of steps from the start faults, and every offset that is visited is
the start of an instruction, with a stack as deep as the walk found there. -/
theorem run_of_verify {c : Chunk} (h : c.verify = .ok ()) :
    ∃ instrs w, c.Verified instrs w ∧
      ∀ (fields : Array Field), fields.size = c.fields.size → ∀ (generator : Lcg) (n : Nat)
        (log : Array Event),
        let r := RunState.run c.code n ⟨0, [], fields, generator⟩ log
        (∀ fault, r.1 ≠ .fault fault) ∧
          (r.1 = .outOfSteps → ∃ k i, instrs[k]? = some i ∧ i.offset = r.2.1.offset ∧
            w.depth? k = some r.2.1.stack.length) := by
  obtain ⟨instrs, w, hw⟩ := (verify_eq_ok_iff c).1 h
  refine ⟨instrs, w, hw, fun fields hfields generator n log => ?_⟩
  obtain ⟨hfault, hat⟩ := hw.run (hw.atStart hfields generator) n log
  exact ⟨hfault, fun hout => (hat hout).depth⟩

/-- A loop that stores to its field and never ends. -/
def endlessStore : Chunk :=
  ⟨(Line.encode [⟨.push, Single.one.bits⟩, ⟨.storeField, 0⟩, ⟨.jump, 0⟩]).toArray,
    #[⟨"a", Single.zero⟩]⟩

theorem run_endlessStore :
    endlessStore.verify = .ok () ∧ ∃ instrs w, endlessStore.Verified instrs w ∧
      ∀ (generator : Lcg) (n : Nat) (log : Array Event) (fault : Fault),
        (RunState.run endlessStore.code n ⟨0, [], endlessStore.fields, generator⟩ log).1 ≠
          .fault fault := by
  have hok : endlessStore.verify.isOk = true := by decide +kernel
  have hverify : endlessStore.verify = .ok () := by
    cases h : endlessStore.verify with
    | ok => rfl
    | error fault =>
      rw [h] at hok
      cases hok
  obtain ⟨instrs, w, hw, hrun⟩ := run_of_verify hverify
  exact ⟨hverify, instrs, w, hw, fun generator n log => (hrun _ rfl generator n log).1⟩

end Chunk
end FieldScript
