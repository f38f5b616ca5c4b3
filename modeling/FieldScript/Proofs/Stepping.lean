/-
# Steps of the machine

What executing an instruction does to the state, and what many steps do.  The
instructions fall into families that take one, two or three values off the
stack; each family has one lemma that says what is left.

`Advances` is a run of steps that only goes forward.  It has at most as many
steps as it moves on in the code (`Advances.run_eq`), which is how a bound on
the number of steps comes about.
-/

import FieldScript.Machine
import FieldScript.Proofs.Emission

namespace FieldScript

/-! ### One instruction -/

namespace Exec

section Families

variable {s : RunState} {i : Instr} {x y z : Single} {rest : List Single}

theorem pop_apply (offset : Nat) (h : s.stack = x :: rest) :
    pop offset s = .ok x { s with stack := rest } := by
  rw [pop, h]

theorem popPair_apply (offset : Nat) (h : s.stack = y :: x :: rest) :
    popPair offset s = .ok (x, y) { s with stack := rest } := by
  rw [popPair, bind_of_ok (pop_apply offset h), bind_of_ok (pop_apply offset rfl)]
  rfl

theorem popTriple_apply (offset : Nat) (h : s.stack = z :: y :: x :: rest) :
    popTriple offset s = .ok (x, y, z) { s with stack := rest } := by
  rw [popTriple, bind_of_ok (pop_apply offset h), bind_of_ok (popPair_apply offset rfl)]
  rfl

theorem unary_apply (f : Single → Single) (h : s.stack = x :: rest) :
    unary i f s = .ok () { s with stack := f x :: rest } := by
  rw [unary, bind_of_ok (pop_apply i.offset h)]
  rfl

theorem binary_apply (f : Single → Single → Single) (h : s.stack = y :: x :: rest) :
    binary i f s = .ok () { s with stack := f x y :: rest } := by
  rw [binary, bind_of_ok (popPair_apply i.offset h)]
  rfl

theorem ternary_apply (f : Single → Single → Single → Single)
    (h : s.stack = z :: y :: x :: rest) :
    ternary i f s = .ok () { s with stack := f x y z :: rest } := by
  rw [ternary, bind_of_ok (popTriple_apply i.offset h)]
  rfl

theorem draw_apply (h : s.stack = y :: x :: rest) :
    draw i s = .ok () { s with
      stack := (s.generator.range x y).1 :: rest, generator := (s.generator.range x y).2 } := by
  rw [draw, bind_of_ok (popPair_apply i.offset h)]
  rfl

theorem jumpIf_apply {w : UInt32} (holds : Single → Single → Bool) (hop : i.operand = some (.offset w))
    (h : s.stack = y :: x :: rest) :
    jumpIf i holds s = .ok () { s with
      stack := rest, offset := if holds x y then w.toNat else s.offset } := by
  have hoffset : offset i s = .ok w.toNat s := by rw [offset, hop]; rfl
  rw [jumpIf, bind_of_ok hoffset, bind_of_ok (popPair_apply i.offset h)]
  cases hxy : holds x y <;> simp only [hxy] <;> rfl

/-- The jump of a comparison is taken if the comparison holds. -/
theorem execute_cmp (op : CmpOp) (offset : Nat) (target : UInt32) :
    execute (Line.instr offset ⟨op.jumpOpcode, target⟩) =
      jumpIf (Line.instr offset ⟨op.jumpOpcode, target⟩) op.holds := by
  cases op <;> rfl

theorem operand_jumpOpcode (op : CmpOp) (offset : Nat) (target : UInt32) :
    (Line.instr offset ⟨op.jumpOpcode, target⟩).operand = some (.offset target) := by
  cases op <;> rfl

theorem load_apply {w : UInt32} {f : Field} (hop : i.operand = some (.offset w))
    (h : s.fields[w.toNat]? = some f) :
    load i s = .ok () { s with stack := f.value :: s.stack } := by
  have hoffset : offset i s = .ok w.toNat s := by rw [offset, hop]; rfl
  have hget : (get : Exec RunState) s = .ok s s := rfl
  rw [load, bind_of_ok hoffset, bind_of_ok hget, h]
  rfl

theorem store_apply {w : UInt32} (hop : i.operand = some (.offset w)) (h : s.stack = x :: rest)
    (hslot : w.toNat < s.fields.size) :
    store i s = .ok () { s with
      stack := rest, fields := s.fields.modify w.toNat fun f => { f with value := x } } := by
  have hoffset : offset i s = .ok w.toNat s := by rw [offset, hop]; rfl
  have hget : ∀ t : RunState, (get : Exec RunState) t = .ok t t := fun _ => rfl
  rw [store, bind_of_ok hoffset, bind_of_ok (pop_apply i.offset h), bind_of_ok (hget _),
    if_pos hslot]
  rfl

end Families

/-- What is fetched is what the bytes at the offset decode to; the state stays. -/
theorem fetch_cases (code : Array UInt8) (s : RunState) :
    (∃ i, Instr.decodeAt code s.offset = .ok i ∧ fetch code s = .ok i s) ∨
      ∃ fault, (∀ i, Instr.decodeAt code s.offset ≠ .ok i) ∧ fetch code s = .error fault s := by
  have hget : (get : Exec RunState) s = .ok s s := rfl
  rw [fetch, bind_of_ok hget]
  by_cases hlt : s.offset < code.size
  · rw [if_pos hlt]
    cases hdecode : Instr.decodeAt code s.offset with
    | ok i => exact .inl ⟨i, rfl, rfl⟩
    | error e => exact .inr ⟨.malformed e, by simp, rfl⟩
  · rw [if_neg hlt]
    exact .inr ⟨.ranOffEnd s.offset, fun i hi => hlt (Instr.lt_size_of_decodeAt hi), rfl⟩

/-- **A step executes the instruction at the offset,** with the next one already
in view. -/
theorem step_eq_ok_iff {code : Array UInt8} {s t : RunState} {i : Instr} :
    step code s = .ok i t ↔
      Instr.decodeAt code s.offset = .ok i ∧ execute i { s with offset := i.next } = .ok () t := by
  have hgoto : ∀ j : Instr, goto j.next s = .ok () { s with offset := j.next } := fun _ => rfl
  rw [step]
  obtain ⟨j, hdecode, hfetch⟩ | ⟨fault, hdecode, hfetch⟩ := fetch_cases code s
  · rw [bind_of_ok hfetch, bind_of_ok (hgoto j), hdecode]
    cases hexec : execute j { s with offset := j.next } with
    | error e u =>
      rw [bind_of_error hexec]
      constructor
      · rintro ⟨⟩
      · rintro ⟨⟨⟩, hok⟩
        rw [hexec] at hok
        cases hok
    | ok a u =>
      rw [bind_of_ok hexec]
      constructor
      · rintro ⟨⟩
        exact ⟨rfl, hexec⟩
      · rintro ⟨⟨⟩, hok⟩
        rw [hexec] at hok
        cases hok
        rfl
  · rw [bind_of_error hfetch]
    constructor
    · rintro ⟨⟩
    · rintro ⟨hok, _⟩
      exact absurd hok (hdecode i)

/-- The step of a line. -/
theorem step_eq {code : Array UInt8} {s : RunState} {l : Line}
    (h : Instr.decodeAt code s.offset = .ok (l.instr s.offset)) {t : RunState}
    (hexec : execute (l.instr s.offset) { s with offset := s.offset + l.opcode.length } = .ok () t) :
    step code s = .ok (l.instr s.offset) t :=
  step_eq_ok_iff.2 ⟨h, hexec⟩

end Exec

/-! ### Many steps -/

/-- Steps that only go forward and do not return. -/
inductive Advances (code : Array UInt8) : RunState → RunState → Prop
  | refl (s : RunState) : Advances code s s
  | step {s t u : RunState} {i : Instr} (hstep : Exec.step code s = .ok i t)
      (hret : i.opcode ≠ .ret) (hlt : s.offset < t.offset) (h : Advances code t u) :
      Advances code s u

namespace Advances

variable {code : Array UInt8} {s t u : RunState}

theorem trans (h : Advances code s t) (h' : Advances code t u) : Advances code s u := by
  induction h with
  | refl _ => exact h'
  | step hstep hret hlt _ ih => exact .step hstep hret hlt (ih h')

/-- The step of one line. -/
theorem one {l : Line} (h : Instr.decodeAt code s.offset = .ok (l.instr s.offset))
    (hexec : Exec.execute (l.instr s.offset) { s with offset := s.offset + l.opcode.length } =
      .ok () t)
    (hret : l.opcode ≠ .ret) (hlt : s.offset < t.offset) : Advances code s t :=
  .step (Exec.step_eq h hexec) hret hlt (.refl t)

/-- **A run follows the steps,** and there are no more of them than bytes on
the way. -/
theorem run_eq (h : Advances code s t) (log : Array Event) :
    ∃ n log', n + s.offset ≤ t.offset ∧
      ∀ bound, RunState.run code (bound + n) s log = RunState.run code bound t log' := by
  induction h generalizing log with
  | refl s => exact ⟨0, log, by omega, fun _ => rfl⟩
  | @step s t u i hstep hret hlt _ ih =>
    obtain ⟨n, log', hn, hrun⟩ := ih (log.push (.executed i t.stack.length t.stack.head?))
    refine ⟨n + 1, log', by omega, fun bound => ?_⟩
    rw [← Nat.add_assoc, RunState.run, hstep]
    simp only [if_neg hret, hrun bound]

end Advances

/-- A run ends at a return. -/
theorem RunState.run_ret {code : Array UInt8} {s : RunState}
    (h : Instr.decodeAt code s.offset = .ok (Line.instr s.offset ⟨.ret, 0⟩)) (bound : Nat)
    (log : Array Event) :
    RunState.run code (bound + 1) s log = (.returned, { s with offset := s.offset + 1 },
      log.push (.returned s.offset s.stack.length)) := by
  rw [RunState.run, Exec.step_eq h rfl]
  rfl

/-- What a machine leaves when its run ends. -/
theorem Machine.run_eq {m : Machine} {c : Chunk} {ending : Ending} {s : RunState}
    {log : Array Event}
    (h : RunState.run c.code stepLimit ⟨0, [], c.fields, m.generator⟩
      #[.runStart c.size c.fields.size] = (ending, s, log)) :
    (m.run c).ending = ending ∧ (m.run c).machine = ⟨s.stack, s.generator⟩ ∧
      (m.run c).chunk = { c with fields := s.fields } := by
  simp only [run, h, and_self]

/-- What a machine that returned has logged. -/
theorem Machine.log_run {m : Machine} {c : Chunk} {s : RunState} {log : Array Event}
    (h : RunState.run c.code stepLimit ⟨0, [], c.fields, m.generator⟩
      #[.runStart c.size c.fields.size] = (.returned, s, log)) :
    (m.run c).log = log.toList ++ [.runEnd s.stack.length] := by
  simp only [run, h, if_true, Array.toList_push]

end FieldScript
