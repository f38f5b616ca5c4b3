/-
# A run writes only the fields that its code stores to

The fields of a chunk change in one way while it runs: a store gives the field in
its slot another value.  Names and slots stay (`Field.Kept`), and this is so of
every instruction, whether it completes or not (`Exec.Writes.execute`).

A machine decodes the bytes wherever it happens to be, and inside an operand they
may look like a store to any slot.  So what a run can write is said relative to
an invariant that keeps the machine where the stores are known
(`RunState.run_kept`).  Without one, names stay all the same.  In verified code
the machine is always at the start of an instruction of the linear decode, so the
stores in this decode are the only ones.

A run changes neither the code nor the number of fields, and the verifier looks
at nothing else (`Chunk.Verified.of_same`).
-/

import FieldScript.Proofs.Lockstep

namespace FieldScript

/-- The instruction stores to a slot. -/
def Instr.Stores (i : Instr) (slot : Nat) : Prop :=
  i.opcode = .storeField ∧ ∃ word, i.operand = some (.offset word) ∧ word.toNat = slot

/-! ### Fields that stay -/

/-- Fields with other values in some slots at most: the names stay in all slots,
and whole fields in the slots outside of `P`. -/
structure Field.Kept (P : Nat → Prop) (before after : Array Field) : Prop where
  names : Field.names after.toList = Field.names before.toList
  field : ∀ slot, ¬P slot → after[slot]? = before[slot]?

namespace Field.Kept

variable {P : Nat → Prop} {before mid after : Array Field}

theorem refl (P : Nat → Prop) (fields : Array Field) : Kept P fields fields :=
  ⟨rfl, fun _ _ => rfl⟩

theorem trans (h : Kept P before mid) (h' : Kept P mid after) : Kept P before after where
  names := h'.names.trans h.names
  field slot hslot := (h'.field slot hslot).trans (h.field slot hslot)

theorem size (h : Kept P before after) : after.size = before.size := by
  have hlength := congrArg List.length h.names
  rwa [length_names, length_names, Array.length_toList, Array.length_toList] at hlength

/-- Another value in one slot. -/
theorem modify {slot : Nat} (hslot : P slot) (fields : Array Field) (x : Single) :
    Kept P fields (fields.modify slot fun f => { f with value := x }) where
  names := by rw [Array.toList_modify, names_modify_value]
  field other hother := by
    have hne : slot ≠ other := fun h => hother (h ▸ hslot)
    rw [Array.getElem?_modify, if_neg hne]

end Field.Kept

/-! ### What an instruction writes -/

/-- Between two states of a run only slots in `P` were written. -/
def RunState.Kept (P : Nat → Prop) (s t : RunState) : Prop := Field.Kept P s.fields t.fields

instance (P : Nat → Prop) : Std.Refl (RunState.Kept P) := ⟨fun s => .refl P s.fields⟩

instance (P : Nat → Prop) : Trans (RunState.Kept P) (RunState.Kept P) (RunState.Kept P) :=
  ⟨Field.Kept.trans⟩

namespace Exec

/-- The computation writes to slots in `P` at most. -/
abbrev Writes {α : Type} (P : Nat → Prop) (x : Exec α) : Prop := Within (RunState.Kept P) x

namespace Writes

variable {α : Type} {P : Nat → Prop}

theorem of_blind {x : Exec α} (h : Blind x) : Writes P x := by
  intro s
  have hsame : x s = withFields s.fields (x s) := h s s.fields
  have hfields : (stateLeft (x s)).fields = s.fields := by
    rw [hsame]
    cases x s <;> rfl
  rw [RunState.Kept, hfields]
  exact .refl P s.fields

theorem load (i : Instr) : Writes P (Exec.load i) := by
  refine (of_blind (.offset i)).bind fun _ slot _ _ => .get fun s => ?_
  split
  · exact of_blind (.push _)
  · exact .throw _

theorem store {i : Instr} (h : ∀ word, i.operand = some (.offset word) → P word.toNat) :
    Writes P (Exec.store i) := by
  refine (of_blind (.offset i)).bind fun s slot t hoffset => ?_
  have hslot : P slot := by
    cases hoperand : i.operand with
    | none =>
      rw [Exec.offset, hoperand] at hoffset
      cases hoffset
    | some operand =>
      rw [Exec.offset, hoperand] at hoffset
      cases operand with
      | number x => cases hoffset
      | offset word =>
        cases hoffset
        exact h word hoperand
  refine (of_blind (.pop i.offset)).bind fun _ x _ _ => .get fun s => ?_
  split
  · exact fun s => .modify hslot s.fields x
  · exact .throw _

/-- **An instruction writes to the slot that it stores to, and nowhere else.** -/
theorem execute (i : Instr) : Writes i.Stores (Exec.execute i) := by
  obtain ⟨start, op, operand⟩ := i
  by_cases hkind : op.operandKind = .field
  · obtain rfl | rfl := Opcode.eq_of_operandKind_field hkind
    · exact load _
    · exact store fun word hoperand => ⟨rfl, word, hoperand, rfl⟩
  · exact of_blind (.execute hkind)

end Writes

/-- A step writes where the instruction at its offset stores, if there is one. -/
theorem step_kept {code : Array UInt8} {P : Nat → Prop} {s : RunState}
    (h : ∀ i slot, Instr.decodeAt code s.offset = .ok i → i.Stores slot → P slot) :
    Field.Kept P s.fields (stateLeft (step code s)).fields := by
  rw [step]
  obtain ⟨i, hdecode, hfetch⟩ | ⟨fault, -, hfetch⟩ := fetch_cases code s
  · have hexec : Writes P (execute i) := fun t =>
      ⟨(Writes.execute i t).names, fun slot hslot =>
        (Writes.execute i t).field slot fun hstores => hslot (h i slot hdecode hstores)⟩
    rw [bind_of_ok hfetch]
    exact hexec.seq (fun _ => .pure i) { s with offset := i.next }
  · rw [bind_of_error hfetch]
    exact .refl P s.fields

end Exec

/-! ### What a run writes -/

/-- **What a run writes.**  The invariant `I` says where the machine can be, and
`P` has the slots that are stored to from there. -/
theorem RunState.run_kept {code : Array UInt8} {P : Nat → Prop} {I : RunState → Prop}
    (hstores : ∀ s i slot, I s → Instr.decodeAt code s.offset = .ok i → i.Stores slot → P slot)
    (hstep : ∀ s i t, I s → Exec.step code s = .ok i t → i.opcode ≠ .ret → I t)
    {s : RunState} (hs : I s) (n : Nat) (log : Array Event) :
    Field.Kept P s.fields (RunState.run code n s log).2.1.fields := by
  induction n generalizing s log with
  | zero => exact .refl P s.fields
  | succ n ih =>
    have hkept := Exec.step_kept fun i slot => hstores s i slot hs
    rw [RunState.run]
    cases hexec : Exec.step code s with
    | error fault t =>
      rw [hexec] at hkept
      exact hkept
    | ok i t =>
      rw [hexec] at hkept
      dsimp only
      by_cases hret : i.opcode = .ret
      · rw [if_pos hret]
        exact hkept
      · rw [if_neg hret]
        exact hkept.trans (ih (hstep s i t hs hexec hret) _)

/-- In any code, whatever a run does, the names stay. -/
theorem RunState.names_run (code : Array UInt8) (n : Nat) (s : RunState) (log : Array Event) :
    Field.names (RunState.run code n s log).2.1.fields.toList = Field.names s.fields.toList :=
  (run_kept (P := fun _ => True) (I := fun _ => True) (fun _ _ _ _ _ _ => trivial)
    (fun _ _ _ _ _ _ => trivial) trivial n log).names

namespace Chunk

/-- In verified code the machine is always at an instruction of the linear decode,
so what a run writes is stored by one of them. -/
theorem Verified.run_kept {c : Chunk} {instrs : List Instr} {w : Verifier.Walk}
    (h : c.Verified instrs w) {s : RunState} (hs : AtDepth c instrs w s) (n : Nat)
    (log : Array Event) :
    Field.Kept (fun slot => ∃ i ∈ instrs, i.Stores slot) s.fields
      (RunState.run c.code n s log).2.1.fields := by
  refine RunState.run_kept (I := AtDepth c instrs w) ?_ ?_ hs n log
  · intro s i slot hat hdecode hstores
    obtain ⟨k, j, hk, hoffset, _⟩ := hat.depth
    have hmem := List.mem_of_getElem? hk
    have hj := (contiguous_of_instrs? h.decode).2 j hmem
    rw [hoffset, hdecode] at hj
    cases hj
    exact ⟨i, hmem, hstores⟩
  · intro s i t hat hstep hret
    obtain ⟨j, u, hstep', _, _, hnext⟩ := h.step hat
    rw [hstep] at hstep'
    cases hstep'
    exact (hnext hret).1

/-- The verifier looks at the code and at the number of fields. -/
theorem Verified.of_same {c d : Chunk} {instrs : List Instr} {w : Verifier.Walk}
    (h : c.Verified instrs w) (hcode : d.code = c.code)
    (hsize : d.fields.size = c.fields.size) : d.Verified instrs w := by
  obtain ⟨_, fields⟩ := d
  cases hcode
  exact ⟨h.decode, h.nonempty, hsize ▸ h.operands, h.walk⟩

/-- The chunk that is left when machines run it one after the other. -/
def afterRuns (c : Chunk) (machines : List Machine) : Chunk :=
  machines.foldl (fun c m => (m.run c).chunk) c

theorem code_afterRuns (c : Chunk) (machines : List Machine) :
    (c.afterRuns machines).code = c.code := by
  induction machines generalizing c with
  | nil => rfl
  | cons m machines ih => exact ih (m.run c).chunk

/-- Between runs the fields have only changed where the code stores, so that the
next run starts from a verified chunk again. -/
theorem Verified.afterRuns_kept {c : Chunk} {instrs : List Instr} {w : Verifier.Walk}
    (h : c.Verified instrs w) (machines : List Machine) :
    Field.Kept (fun slot => ∃ i ∈ instrs, i.Stores slot) c.fields
      (c.afterRuns machines).fields := by
  induction machines generalizing c with
  | nil => exact .refl _ c.fields
  | cons m machines ih =>
    have hrun : Field.Kept (fun slot => ∃ i ∈ instrs, i.Stores slot) c.fields
        (m.run c).chunk.fields :=
      h.run_kept (h.atStart rfl m.generator) Machine.stepLimit _
    exact hrun.trans (ih (h.of_same rfl hrun.size))

/-- **A run of a verified chunk writes only the fields that its code stores to.**
This is so of any number of steps of a run, after any number of runs: the code,
the names and the number of fields stay, and so does every field whose slot is not
the operand of a store in the linear decode.  The chunk passes the verifier again
after every run. -/
theorem kept_of_verify {c : Chunk} (h : c.verify = .ok ()) :
    ∃ instrs, c.instrs? = .ok instrs ∧ ∀ machines : List Machine,
      let d := c.afterRuns machines
      (d.verify = .ok () ∧ d.code = c.code ∧ d.names = c.names ∧
          d.fields.size = c.fields.size ∧
          ∀ slot, (∀ i ∈ instrs, ¬i.Stores slot) → d.fields[slot]? = c.fields[slot]?) ∧
        ∀ (generator : Lcg) (n : Nat) (log : Array Event),
          let t := (RunState.run d.code n ⟨0, [], d.fields, generator⟩ log).2.1
          Field.names t.fields.toList = c.names ∧ t.fields.size = c.fields.size ∧
            ∀ slot, (∀ i ∈ instrs, ¬i.Stores slot) → t.fields[slot]? = c.fields[slot]? := by
  obtain ⟨instrs, w, hw⟩ := (verify_eq_ok_iff c).1 h
  refine ⟨instrs, hw.decode, fun machines => ?_⟩
  have hcode := c.code_afterRuns machines
  have hafter := hw.afterRuns_kept machines
  have hunstored {slot : Nat} (hslot : ∀ i ∈ instrs, ¬i.Stores slot) :
      ¬∃ i ∈ instrs, i.Stores slot := by
    rintro ⟨i, hi, hstores⟩
    exact hslot i hi hstores
  have hverify := (verify_eq_ok_iff _).2 ⟨instrs, w, hw.of_same hcode hafter.size⟩
  refine ⟨⟨hverify, hcode, hafter.names, hafter.size,
    fun slot hslot => hafter.field slot (hunstored hslot)⟩, fun generator n log => ?_⟩
  have hrun := hafter.trans (hw.run_kept (hw.atStart hafter.size generator) n log)
  rw [hcode]
  exact ⟨hrun.names, hrun.size, fun slot hslot => hrun.field slot (hunstored hslot)⟩

/-- Stores to its second field.  The number that it pushes has the byte of a store,
so a machine that entered the operand of the second push would store to the first
field. -/
def hiddenStore : Chunk :=
  ⟨(Line.encode [⟨.push, 0x10⟩, ⟨.storeField, 1⟩, ⟨.push, 0x10⟩, ⟨.ret, 0⟩]).toArray,
    #[⟨"a", Single.one⟩, ⟨"b", Single.one⟩]⟩

theorem hiddenStore_kept :
    hiddenStore.verify = .ok () ∧ (∃ i, Instr.decodeAt hiddenStore.code 11 = .ok i ∧ i.Stores 0) ∧
      ∀ machines : List Machine,
        (hiddenStore.afterRuns machines).fields[0]? = some ⟨"a", Single.one⟩ := by
  have hdecode : hiddenStore.instrs = ([⟨0, .push, some (.number ⟨0x10⟩)⟩,
      ⟨5, .storeField, some (.offset 1)⟩, ⟨10, .push, some (.number ⟨0x10⟩)⟩, ⟨15, .ret, none⟩],
      none) :=
    @Line.decodeFrom_encode hiddenStore.code []
      [⟨.push, 0x10⟩, ⟨.storeField, 1⟩, ⟨.push, 0x10⟩, ⟨.ret, 0⟩] rfl
  have hhidden : Instr.decodeAt hiddenStore.code 11 =
      .ok ⟨11, .storeField, some (.offset 0)⟩ := rfl
  have hok : hiddenStore.verify.isOk = true := by decide +kernel
  have hverify : hiddenStore.verify = .ok () := by
    cases h : hiddenStore.verify with
    | ok => rfl
    | error fault =>
      rw [h] at hok
      cases hok
  obtain ⟨instrs, hinstrs, hkept⟩ := kept_of_verify hverify
  rw [instrs?, hdecode] at hinstrs
  cases hinstrs
  refine ⟨hverify, ⟨_, hhidden, rfl, 0, rfl, rfl⟩, fun machines => ?_⟩
  refine (hkept machines).1.2.2.2.2 0 ?_
  simp [Instr.Stores]

end Chunk
end FieldScript
