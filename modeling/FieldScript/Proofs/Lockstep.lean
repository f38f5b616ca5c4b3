/-
# Machines in step

Two machines run code that differs in the slots of fields (`Instr.Renamed`).
They stay *in step*: at the same offset, with the same stack and generator, and
with one value for every name, though the values stand in different slots.

An instruction that names no field does the same with any table of fields
(`Exec.Blind.execute`).  One that names a field reads or writes by name on both
sides (`Exec.load_name`, `Exec.store_name`), since its slot is the one that the
chunk has for the name.  That a machine is at the start of an instruction, and
not inside of one, where the codes differ, is known because the code of one of
the two is verified.
-/

import FieldScript.Proofs.Renaming
import FieldScript.Proofs.Soundness

namespace FieldScript

/-! ### Instructions without fields -/

namespace Exec

/-- A result with other fields in its state. -/
def withFields {α : Type} (fields : Array Field) :
    EStateM.Result Fault RunState α → EStateM.Result Fault RunState α
  | .ok a s => .ok a { s with fields }
  | .error e s => .error e { s with fields }

/-- The computation neither reads nor changes fields. -/
def Blind {α : Type} (x : Exec α) : Prop :=
  ∀ (s : RunState) (fields : Array Field), x { s with fields } = withFields fields (x s)

namespace Blind

variable {α β : Type}

theorem pure (a : α) : Blind (Pure.pure a : Exec α) := fun _ _ => rfl

theorem bind {x : Exec α} {f : α → Exec β} (hx : Blind x) (hf : ∀ a, Blind (f a)) :
    Blind (x >>= f) := by
  intro s fields
  have hs := hx s fields
  cases h : x s with
  | ok a t =>
    rw [h] at hs
    rw [bind_of_ok h, bind_of_ok hs, hf a t fields]
  | error e t =>
    rw [h] at hs
    rw [bind_of_error h, bind_of_error hs]
    rfl

theorem push (x : Single) : Blind (Exec.push x) := fun _ _ => rfl

theorem goto (target : Nat) : Blind (Exec.goto target) := fun _ _ => rfl

theorem pop (offset : Nat) : Blind (Exec.pop offset) := by
  intro s fields
  obtain ⟨_, stack, _, _⟩ := s
  cases stack <;> rfl

theorem popPair (offset : Nat) : Blind (Exec.popPair offset) :=
  (pop offset).bind fun _ => (pop offset).bind fun _ => .pure _

theorem popTriple (offset : Nat) : Blind (Exec.popTriple offset) :=
  (pop offset).bind fun _ => (popPair offset).bind fun _ => .pure _

theorem number (i : Instr) : Blind (Exec.number i) := by
  unfold Exec.number
  split
  · exact .pure _
  · exact fun _ _ => rfl

theorem offset (i : Instr) : Blind (Exec.offset i) := by
  unfold Exec.offset
  split
  · exact .pure _
  · exact fun _ _ => rfl

theorem unary (i : Instr) (f : Single → Single) : Blind (Exec.unary i f) :=
  (pop i.offset).bind fun _ => push _

theorem binary (i : Instr) (f : Single → Single → Single) : Blind (Exec.binary i f) :=
  (popPair i.offset).bind fun _ => push _

theorem ternary (i : Instr) (f : Single → Single → Single → Single) : Blind (Exec.ternary i f) :=
  (popTriple i.offset).bind fun _ => push _

theorem jumpIf (i : Instr) (holds : Single → Single → Bool) : Blind (Exec.jumpIf i holds) := by
  refine (offset i).bind fun target => (popPair i.offset).bind fun p => ?_
  dsimp only
  split
  · exact goto target
  · exact .pure ()

theorem draw (i : Instr) : Blind (Exec.draw i) :=
  (popPair i.offset).bind fun _ _ _ => rfl

/-- **An instruction without a field is blind to all fields.** -/
theorem execute {i : Instr} (h : i.opcode.operandKind ≠ .field) : Blind (Exec.execute i) := by
  obtain ⟨start, op, operand⟩ := i
  unfold Exec.execute
  cases op
  all_goals dsimp only
  case loadField | storeField => exact absurd rfl h
  case ret => exact .pure ()
  case push => exact (number _).bind fun x => push x
  case discard => exact (pop _).bind fun _ => .pure ()
  case jump => exact (offset _).bind fun target => goto target
  case rand => exact draw _
  case add | sub | mul | div | mod => exact binary _ _
  case clamp | lerp | smoothstep => exact ternary _ _
  case jumpEq | jumpNe | jumpLt | jumpGt | jumpLe | jumpGe => exact jumpIf _ _
  all_goals exact unary _ _

end Blind

/-- What such an instruction does with one table of fields it does with any. -/
theorem execute_withFields {i : Instr} (h : i.opcode.operandKind ≠ .field) {s t : RunState}
    (hexec : execute i s = .ok () t) :
    t.fields = s.fields ∧ ∀ fields, execute i { s with fields } = .ok () { t with fields } := by
  have hblind : ∀ fields, execute i { s with fields } = .ok () { t with fields } := by
    intro fields
    rw [Blind.execute h s fields, hexec]
    rfl
  refine ⟨?_, hblind⟩
  have hsame : EStateM.Result.ok () t = .ok () { t with fields := s.fields } :=
    hexec.symm.trans (hblind s.fields)
  injection hsame with _ ht
  rw [ht]

end Exec

/-! ### Fields by name -/

/-- Two states of machines that run code with different numbers for the same
fields: they are at the same place, and every name has one value. -/
structure InStep (c d : Chunk) (s t : RunState) : Prop where
  offset : s.offset = t.offset
  stack : s.stack = t.stack
  generator : s.generator = t.generator
  left : Field.names s.fields.toList = c.names
  right : Field.names t.fields.toList = d.names
  read : ∀ name, Field.read name s.fields.toList = Field.read name t.fields.toList

/-- The slot of a name fits into a word, in a chunk with no more fields than
there are words. -/
theorem Chunk.slot_of_names {c : Chunk} (hc : c.fields.size ≤ UInt32.size) {name : String}
    {slot : Nat} (hslot : c.slot? name = some slot) {fields : Array Field}
    (hnames : Field.names fields.toList = c.names) :
    name ∈ Field.names fields.toList ∧
      slot.toUInt32.toNat = slotFor (Field.names fields.toList) name := by
  rw [Chunk.slot?_eq_ite] at hslot
  split at hslot
  · rename_i hmem
    cases hslot
    have hlt := slotFor_lt hmem
    rw [Chunk.length_names] at hlt
    rw [hnames]
    exact ⟨hmem, UInt32.toNat_ofNat_of_lt' (Nat.lt_of_lt_of_le hlt hc)⟩
  · cases hslot

namespace Exec

/-- A store that completes takes a value off the stack. -/
theorem exists_of_store {offset : Nat} {word : UInt32} {s t : RunState}
    (h : execute ⟨offset, .storeField, some (.offset word)⟩ s = .ok () t) :
    ∃ x rest, s.stack = x :: rest := by
  cases hstack : s.stack with
  | cons x rest => exact ⟨x, rest, rfl⟩
  | nil =>
    have hpop : pop offset s = .error (.underflow offset) s := by rw [pop, hstack]
    have hslot : Exec.offset ⟨offset, .storeField, some (.offset word)⟩ s = .ok word.toNat s := rfl
    have hstore : store ⟨offset, .storeField, some (.offset word)⟩ s = .ok () t := h
    rw [store, bind_of_ok hslot, bind_of_error hpop] at hstore
    cases hstore

section Names

variable {c : Chunk} (hc : c.fields.size ≤ UInt32.size) {name : String} {slot : Nat}
  (hslot : c.slot? name = some slot) {s : RunState} (hnames : Field.names s.fields.toList = c.names)
  {offset : Nat}

include hc hslot hnames

/-- A load of a field by its slot is a read by its name. -/
theorem load_name :
    execute ⟨offset, .loadField, some (.offset slot.toUInt32)⟩ s =
      .ok () { s with stack := Field.read name s.fields.toList :: s.stack } := by
  obtain ⟨hmem, hword⟩ := Chunk.slot_of_names hc hslot hnames
  obtain ⟨f, hf, hread⟩ := Field.read_of_mem hmem
  rw [← hword, Array.getElem?_toList] at hf
  rw [hread]
  exact load_apply rfl hf

/-- A store to a field by its slot is a write by its name. -/
theorem store_name {x : Single} {rest : List Single} (hstack : s.stack = x :: rest) :
    execute ⟨offset, .storeField, some (.offset slot.toUInt32)⟩ s =
      .ok () { s with stack := rest, fields := (Field.write name x s.fields.toList).toArray } := by
  obtain ⟨hmem, hword⟩ := Chunk.slot_of_names hc hslot hnames
  have hlt : slot.toUInt32.toNat < s.fields.size := by
    rw [hword, ← Array.length_toList, ← Field.length_names]
    exact slotFor_lt hmem
  have hwrite : (Field.write name x s.fields.toList).toArray =
      s.fields.modify slot.toUInt32.toNat fun f => { f with value := x } := by
    refine Array.ext' ?_
    rw [Field.write_eq_modify, Field.declare_of_mem hmem, hword, Array.toList_modify]
  rw [hwrite]
  exact store_apply rfl hstack hlt

end Names
end Exec

theorem Opcode.eq_of_operandKind_field {op : Opcode} (h : op.operandKind = .field) :
    op = .loadField ∨ op = .storeField := by
  cases op <;> simp [operandKind] at h ⊢

/-! ### Steps and runs -/

namespace InStep

variable {c d : Chunk} (hc : c.fields.size ≤ UInt32.size) (hd : d.fields.size ≤ UInt32.size)
  {s t s' : RunState}

include hc hd

/-- Two instructions that differ in the slot of a field keep machines in step. -/
theorem execute {i j : Instr} (h : InStep c d s t) (hij : Instr.Renamed c d i j)
    (hexec : Exec.execute i s = .ok () s') :
    ∃ t', Exec.execute j t = .ok () t' ∧ InStep c d s' t' := by
  obtain ⟨hoffset, hstack, hgenerator, hleft, hright, hread⟩ := h
  cases hij with
  | same hkind =>
    obtain ⟨hfields, hblind⟩ := Exec.execute_withFields hkind hexec
    have ht : { s with fields := t.fields } = t := by rw [hoffset, hstack, hgenerator]
    have hexec' := hblind t.fields
    rw [ht] at hexec'
    refine ⟨_, hexec', rfl, rfl, rfl, ?_, hright, ?_⟩
    · rw [hfields, hleft]
    · rw [hfields]
      exact hread
  | @field start op name slot slot' hkind hslot hslot' =>
    rcases Opcode.eq_of_operandKind_field hkind with rfl | rfl
    · rw [Exec.load_name hc hslot hleft] at hexec
      cases hexec
      refine ⟨_, Exec.load_name hd hslot' hright, hoffset, ?_, hgenerator, hleft, hright, hread⟩
      simp only [hread, hstack]
    · obtain ⟨x, rest, hs⟩ := Exec.exists_of_store hexec
      rw [Exec.store_name hc hslot hleft hs] at hexec
      cases hexec
      have ht : t.stack = x :: rest := hstack.symm.trans hs
      refine ⟨_, Exec.store_name hd hslot' hright ht, hoffset, rfl, hgenerator, ?_, ?_, ?_⟩
      · rw [Field.names_write, declareName_of_mem (Chunk.slot_of_names hc hslot hleft).1, hleft]
      · rw [Field.names_write, declareName_of_mem (Chunk.slot_of_names hd hslot' hright).1, hright]
      · exact Field.read_write_congr hread name x

/-- Machines in step at two such instructions are in step behind them. -/
theorem step {i j : Instr} (h : InStep c d s t) (hij : Instr.Renamed c d i j)
    (hdecode : Instr.decodeAt d.code t.offset = .ok j) (hstep : Exec.step c.code s = .ok i s') :
    ∃ t', Exec.step d.code t = .ok j t' ∧ InStep c d s' t' := by
  obtain ⟨_, hexec⟩ := Exec.step_eq_ok_iff.1 hstep
  have hnext : i.next = j.next := by cases hij <;> rfl
  have hmoved : InStep c d { s with offset := i.next } { t with offset := j.next } :=
    ⟨hnext, h.stack, h.generator, h.left, h.right, h.read⟩
  obtain ⟨t', hexec', hin⟩ := hmoved.execute hc hd hij hexec
  exact ⟨t', Exec.step_eq_ok_iff.2 ⟨hdecode, hexec'⟩, hin⟩

end InStep

namespace Chunk

open Verifier

/-- **Machines stay in step.**  If one runs verified code and the other the same
code with other slots for the fields, then for any number of steps both end the
same way. -/
theorem Verified.run_inStep {c d : Chunk} {is js : List Instr} {w : Walk} (h : c.Verified is w)
    (hd : d.instrs? = .ok js) (hrenamed : List.Forall₂ (Instr.Renamed c d) is js)
    (hcsize : c.fields.size ≤ UInt32.size) (hdsize : d.fields.size ≤ UInt32.size) {s t : RunState}
    (hs : AtDepth c is w s) (hst : InStep c d s t) (n : Nat) (log log' : Array Event) :
    (RunState.run c.code n s log).1 = (RunState.run d.code n t log').1 ∧
      InStep c d (RunState.run c.code n s log).2.1 (RunState.run d.code n t log').2.1 := by
  induction n generalizing s t log log' with
  | zero => exact ⟨rfl, hst⟩
  | succ n ih =>
    obtain ⟨i, s', hstep, hi, hoffset, hnext⟩ := h.step hs
    obtain ⟨j, hj, hij⟩ := Instr.exists_renamed hrenamed hi
    have hsame : i.offset = j.offset ∧ i.opcode = j.opcode := by cases hij <;> exact ⟨rfl, rfl⟩
    have hdecode := (contiguous_of_instrs? hd).2 j hj
    rw [← hsame.1, hoffset, hst.offset] at hdecode
    obtain ⟨t', hstep', hin⟩ := hst.step hcsize hdsize hij hdecode hstep
    rw [RunState.run, RunState.run, hstep, hstep']
    dsimp only
    rw [← hsame.2]
    by_cases hret : i.opcode = .ret
    · rw [if_pos hret, if_pos hret]
      exact ⟨rfl, hin⟩
    · rw [if_neg hret, if_neg hret]
      exact ih (hnext hret).1 hin _ _

/-- **Renumbered code runs alike.**  From fields with the same values by name,
both machines end the same way, with the same values by name. -/
theorem Verified.run_alike {c d : Chunk} {is js : List Instr} {w : Walk} (h : c.Verified is w)
    (hd : d.instrs? = .ok js) (hrenamed : List.Forall₂ (Instr.Renamed c d) is js)
    (hcsize : c.fields.size ≤ UInt32.size) (hdsize : d.fields.size ≤ UInt32.size)
    (hnames : ∀ name, name ∈ c.names ↔ name ∈ d.names)
    (hread : ∀ name, Field.read name c.fields.toList = Field.read name d.fields.toList)
    (m : Machine) :
    (m.run c).ending = (m.run d).ending ∧ (m.run c).machine = (m.run d).machine ∧
      ∀ name, (m.run c).chunk.value? name = (m.run d).chunk.value? name := by
  have hstart : InStep c d ⟨0, [], c.fields, m.generator⟩ ⟨0, [], d.fields, m.generator⟩ :=
    ⟨rfl, rfl, rfl, rfl, rfl, hread⟩
  obtain ⟨hending, hin⟩ := h.run_inStep hd hrenamed hcsize hdsize (h.atStart rfl m.generator) hstart
    Machine.stepLimit #[.runStart c.size c.fields.size] #[.runStart d.size d.fields.size]
  rcases hc : RunState.run c.code Machine.stepLimit ⟨0, [], c.fields, m.generator⟩
    #[.runStart c.size c.fields.size] with ⟨ending, s, log⟩
  rcases hd : RunState.run d.code Machine.stepLimit ⟨0, [], d.fields, m.generator⟩
    #[.runStart d.size d.fields.size] with ⟨ending', t, log'⟩
  rw [hc, hd] at hending hin
  obtain ⟨hcending, hcmachine, hcchunk⟩ := Machine.run_eq hc
  obtain ⟨hdending, hdmachine, hdchunk⟩ := Machine.run_eq hd
  refine ⟨?_, ?_, fun name => ?_⟩
  · rw [hcending, hdending]
    exact hending
  · rw [hcmachine, hdmachine, hin.stack, hin.generator]
  · have hleft : ({ c with fields := s.fields } : Chunk).names = c.names := hin.left
    have hright : ({ d with fields := t.fields } : Chunk).names = d.names := hin.right
    rw [hcchunk, hdchunk, value?_eq_ite, value?_eq_ite, hleft, hright, hin.read]
    simp only [hnames]

end Chunk
end FieldScript
