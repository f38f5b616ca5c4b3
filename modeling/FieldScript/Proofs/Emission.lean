/-
# What one step of a compilation writes

Every step of the compiler extends the state that it finds: bytes behind the
code, names behind the fields, jumps that wait for their targets in front of
those that already wait, and events behind the log.  `Emitter.extend` is that
extension, and two extensions in a row are one (`extend_extend`).

`Emits x g` says that the step `x` writes the segment `g`: it writes its lines
if there is no fault in it, and fails with the first fault otherwise.  The rules
below follow the way in which the compiler puts steps together.
-/

import FieldScript.Proofs.Computations
import FieldScript.Proofs.Layout
import Mathlib.Data.List.Forall2

namespace FieldScript

namespace Chunk

/-- The names of the fields. -/
def names (c : Chunk) : List String := Field.names c.fields.toList

theorem length_names (c : Chunk) : c.names.length = c.fields.size := by
  rw [names, Field.length_names, Array.length_toList]

/-- The chunk with names declared in order. -/
def declareAll (c : Chunk) (names : List String) : Chunk :=
  { c with fields := (Field.declareAll names c.fields.toList).toArray }

/-- A name has a slot if it is declared. -/
theorem slot?_eq_ite (c : Chunk) (name : String) :
    c.slot? name = if name ∈ c.names then some (slotFor c.names name) else none := by
  have hslot : c.slot? name = c.names.findIdx? (· = name) := by
    obtain ⟨code, ⟨fields⟩⟩ := c
    rw [slot?, names, Field.names, List.findIdx?_map, List.findIdx?_toArray]
    rfl
  rw [hslot, slotFor]
  cases h : c.names.findIdx? (· = name) with
  | some slot =>
    obtain ⟨hlt, heq, _⟩ := List.findIdx?_eq_some_iff_getElem.1 h
    have hmem : name ∈ c.names := of_decide_eq_true heq ▸ List.getElem_mem hlt
    rw [if_pos hmem]
    rfl
  | none =>
    have hmem : name ∉ c.names := fun hmem => by
      have := List.findIdx?_eq_none_iff.1 h name hmem
      simp at this
    rw [if_neg hmem]

theorem value?_eq_ite (c : Chunk) (name : String) :
    c.value? name = if name ∈ c.names then some (Field.read name c.fields.toList) else none := by
  rw [value?, slot?_eq_ite]
  by_cases h : name ∈ c.names
  · obtain ⟨f, hf, hread⟩ := Field.read_of_mem h
    rw [Array.getElem?_toList] at hf
    rw [if_pos h, if_pos h, Option.bind_some, valueAt?, names, hf, hread]
    rfl
  · rw [if_neg h, if_neg h]
    rfl

theorem declare_eq (c : Chunk) (name : String) :
    c.declare name = (slotFor c.names name, c.declareAll [name]) := by
  rw [declare, slot?_eq_ite]
  by_cases h : name ∈ c.names
  · have hfields : c.declareAll [name] = c := by
      rw [declareAll, Field.declareAll_cons, Field.declare_of_mem h]
      rfl
    rw [if_pos h, hfields]
  · have hsize : slotFor c.names name = c.fields.size := by
      rw [slotFor_of_not_mem h, length_names]
    have hfields : c.declareAll [name] = { c with fields := c.fields.push (Field.blank name) } := by
      rw [declareAll, Field.declareAll_cons, Field.declare_of_not_mem h, ← Array.toList_push]
      rfl
    rw [if_neg h, hsize, hfields]
    rfl

theorem declareAll_append (c : Chunk) (ns ms : List String) :
    c.declareAll (ns ++ ms) = (c.declareAll ns).declareAll ms := by
  rw [declareAll, Field.declareAll_append]
  rfl

theorem names_declareAll (c : Chunk) (ns : List String) :
    (c.declareAll ns).names = ns.foldl declareName c.names :=
  Field.names_declareAll ns c.fields.toList

namespace Edit

theorem label_apply (c : Chunk) : label c = .ok c.size c := rfl

theorem write_apply (bytes : List UInt8) (c : Chunk) :
    write bytes c = .ok () { c with code := c.code ++ bytes } := rfl

/-- An instruction is appended as a line, if its operand is the one that the
opcode takes, or is left out for a zero. -/
theorem append_apply (l : Line) (operand : Option Operand) (c : Chunk)
    (h : operand = Operand.ofWord? l.word l.opcode.operandKind ∨ operand = none ∧ l.word = 0) :
    append l.opcode operand c = .ok c.size { c with code := c.code ++ l.bytes } := by
  have hbytes : ∀ bytes : List UInt8,
      c.code ++ [l.opcode.toByte] ++ bytes = c.code ++ (l.opcode.toByte :: bytes) := fun bytes => by
    rw [Array.appendList_cons, Array.appendList_cons, Array.appendList_nil]
  rw [append, bind_of_ok (label_apply c), bind_of_ok (write_apply _ c), Line.bytes]
  cases hkind : l.opcode.operandKind with
  | none =>
    have hnone : operand = none := by
      rcases h with h | h
      · rwa [hkind] at h
      · exact h.1
    subst hnone
    rfl
  | number | target | field =>
    rw [hkind] at h
    rcases h with rfl | ⟨rfl, hword⟩
    · rw [if_neg (by decide), ← hbytes]
      rfl
    · rw [if_neg (by decide), ← hbytes, hword]
      rfl

end Edit
end Chunk

namespace Emitter

/-- Where the next segment will stand. -/
def site (s : Emitter) : Site := ⟨s.chunk.size, s.chunk.names⟩

/-- The state after a piece of code was written: its bytes, its names, the
jumps that wait in it and its events are added. -/
def extend (s : Emitter) (f : Footprint) (bytes : List UInt8) (waiting : List Nat) : Emitter :=
  ⟨⟨s.chunk.code ++ bytes, (s.chunk.declareAll f.assigned).fields⟩, waiting ++ s.pending,
    s.log ++ f.events s.site⟩

theorem names_extend (s : Emitter) (f : Footprint) (bytes : List UInt8) (waiting : List Nat) :
    (s.extend f bytes waiting).chunk.names = f.assigned.foldl declareName s.chunk.names :=
  s.chunk.names_declareAll f.assigned

theorem toList_code_extend (s : Emitter) (f : Footprint) (bytes : List UInt8)
    (waiting : List Nat) :
    (s.extend f bytes waiting).chunk.code.toList = s.chunk.code.toList ++ bytes :=
  Array.toList_appendList

theorem site_extend (s : Emitter) {f : Footprint} {bytes : List UInt8} (waiting : List Nat)
    (h : bytes.length = f.size) : (s.extend f bytes waiting).site = s.site.after f := by
  have hsize : (s.extend f bytes waiting).chunk.size = s.chunk.size + f.size := by
    rw [Chunk.size, ← Array.length_toList, toList_code_extend, List.length_append, h,
      Array.length_toList, Chunk.size]
  rw [site, names_extend, hsize]
  rfl

/-- **Two extensions in a row are one.** -/
theorem extend_extend (s : Emitter) {f g : Footprint} {xs ys : List UInt8} (ls ms : List Nat)
    (h : xs.length = f.size) :
    (s.extend f xs ls).extend g ys ms = s.extend (f.seq g) (xs ++ ys) (ms ++ ls) := by
  have hcode : (s.chunk.code ++ xs) ++ ys = s.chunk.code ++ (xs ++ ys) :=
    Array.ext' (by simp only [Array.toList_appendList, List.append_assoc])
  have hlog : (s.log ++ f.events s.site) ++ g.events (s.site.after f) =
      s.log ++ (f.events s.site ++ g.events (s.site.after f)) :=
    Array.ext' (by simp only [Array.toList_appendList, List.append_assoc])
  rw [extend, site_extend s ls h]
  simp only [extend, Footprint.seq, hcode, hlog, Chunk.declareAll_append, List.append_assoc]
  rfl

theorem extend_pending (s : Emitter) (f : Footprint) (bytes : List UInt8) (waiting : List Nat) :
    (s.extend f bytes waiting).pending = waiting ++ s.pending := rfl

theorem extend_ofSize_zero (s : Emitter) : s.extend (.ofSize 0) [] [] = s := by
  have hcode : s.chunk.code ++ ([] : List UInt8) = s.chunk.code := Array.appendList_nil
  have hlog : s.log ++ ([] : List Event) = s.log := Array.appendList_nil
  simp only [extend, Footprint.ofSize, hcode, hlog]
  rfl

end Emitter

/-- If there is a fault, the step `x` fails with it. -/
def Fails {α : Type} (x : Emit α) (fault : Option CompileError) : Prop :=
  ∀ e, fault = some e → ∀ s, ∃ t, x s = .error e t

theorem Fails.of_none {α : Type} (x : Emit α) : Fails x none := fun _ he => by simp at he

/-- The first of two faults counts. -/
theorem Fails.bind {α β : Type} {x : Emit α} {f : α → Emit β} {a b : Option CompileError}
    (hx : Fails x a) (hok : a = none → ∀ s, ∃ r t, x s = .ok r t) (hf : ∀ r, Fails (f r) b) :
    Fails (x >>= f) (a.or b) := by
  intro e he s
  cases a with
  | some e' =>
    obtain ⟨t, ht⟩ := hx e he s
    exact ⟨t, bind_of_error ht⟩
  | none =>
    obtain ⟨r, t, hr⟩ := hok rfl s
    obtain ⟨t', ht'⟩ := hf r e he t
    exact ⟨t', by rw [bind_of_ok hr, ht']⟩

/-- The step `x` writes the segment `g`. -/
structure Emits {α : Type} (x : Emit α) (g : Segment) : Prop where
  ok : g.fault = none → ∀ s, ∃ a, x s = .ok a (s.extend g (Line.encode (g.lines s.site)) [])
  error : Fails x g.fault

namespace Emit

theorem label_apply (s : Emitter) : label s = .ok s.site.offset s := rfl

theorem report_apply (e : Event) (s : Emitter) :
    report e s = .ok () { s with log := s.log.push e } := rfl

/-- **An appended instruction extends the state by its line.** -/
theorem append_apply (l : Line) (operand : Option Operand) (s : Emitter)
    (h : operand = Operand.ofWord? l.word l.opcode.operandKind ∨ operand = none ∧ l.word = 0) :
    edit (Chunk.Edit.append l.opcode operand) s =
      .ok s.site.offset (s.extend (.ofSize l.opcode.length) l.bytes []) := by
  have hlog : s.log ++ ([] : List Event) = s.log := Array.appendList_nil
  simp only [edit, Chunk.Edit.append_apply l operand s.chunk h, Emitter.extend, Footprint.ofSize,
    hlog]
  rfl

theorem push_apply (x : Single) (s : Emitter) :
    push x s = .ok s.site.offset (s.extend (.ofSize 5) (Line.bytes ⟨.push, x.bits⟩) []) :=
  append_apply ⟨.push, x.bits⟩ _ s (.inl rfl)

/-- A jump that waits for its target is written with a zero. -/
theorem pendingJump_apply {op : Opcode} (h : op.isJump = true) (s : Emitter) :
    pendingJump op s =
      .ok s.site.offset (s.extend (.ofSize 5) (Line.bytes ⟨op, 0⟩) [s.site.offset]) := by
  have hkind : op.operandKind = .target := of_decide_eq_true h
  have hlength : op.length = 5 := by rw [Opcode.length, hkind]; rfl
  have hedit := append_apply ⟨op, 0⟩ (some (.offset 0)) s
    (.inl (by simp only [hkind, Operand.ofWord?]))
  rw [hlength] at hedit
  have hjump : edit (Chunk.Edit.jump op 0) = edit (Chunk.Edit.append op (some (.offset 0))) := by
    rw [Chunk.Edit.jump, if_pos h]
    rfl
  rw [pendingJump, hjump, bind_of_ok hedit]
  rfl

section Extended

variable {s : Emitter} {f : Footprint} {bytes : List UInt8} (waiting : List Nat)
  (h : bytes.length = f.size)
include h

theorem label_extend :
    label (s.extend f bytes waiting) = .ok (s.site.after f).offset (s.extend f bytes waiting) := by
  rw [label_apply, s.site_extend waiting h]

theorem push_extend (x : Single) :
    push x (s.extend f bytes waiting) = .ok (s.site.after f).offset
      (s.extend (f.seq (.ofSize 5)) (bytes ++ Line.bytes ⟨.push, x.bits⟩) waiting) := by
  rw [push_apply, s.site_extend waiting h, s.extend_extend waiting [] h, List.nil_append]

theorem pendingJump_extend {op : Opcode} (hop : op.isJump = true) :
    pendingJump op (s.extend f bytes waiting) = .ok (s.site.after f).offset
      (s.extend (f.seq (.ofSize 5)) (bytes ++ Line.bytes ⟨op, 0⟩)
        ((s.site.after f).offset :: waiting)) := by
  rw [pendingJump_apply hop, s.site_extend waiting h, s.extend_extend waiting _ h]
  rfl

end Extended

theorem declare_apply (name : String) (s : Emitter) :
    declare name s =
      .ok (slotFor s.site.names name) { s with chunk := s.chunk.declareAll [name] } := by
  have happly : declare name s =
      .ok (s.chunk.declare name).1 { s with chunk := (s.chunk.declare name).2 } := rfl
  rw [happly, s.chunk.declare_eq]
  rfl

end Emit

namespace Emits

variable {α β : Type} {x : Emit α} {a b : Segment}

/-- A segment without a fault is written by a step that always succeeds. -/
theorem of_apply (hfault : a.fault = none)
    (h : ∀ s, ∃ r, x s = .ok r (s.extend a (Line.encode (a.lines s.site)) [])) : Emits x a :=
  ⟨fun _ => h, hfault ▸ Fails.of_none x⟩

theorem fails_bind {f : α → Emit β} {e : Option CompileError} (hx : Emits x a)
    (hf : ∀ r, Fails (f r) e) : Fails (x >>= f) (a.fault.or e) := by
  refine hx.error.bind (fun ha s => ?_) hf
  obtain ⟨r, hr⟩ := hx.ok ha s
  exact ⟨r, _, hr⟩

theorem seq {f : α → Emit β} (hx : Emits x a) (hf : ∀ r, Emits (f r) b) :
    Emits (x >>= f) (a.seq b) := by
  constructor
  · intro hfault s
    obtain ⟨ha, hb⟩ := Option.or_eq_none_iff.1 hfault
    obtain ⟨r, hr⟩ := hx.ok ha s
    have hsize : (Line.encode (a.lines s.site)).length = a.size := by
      rw [Line.length_encode, a.total_lines]
    obtain ⟨r', hr'⟩ := (hf r).ok hb (s.extend a (Line.encode (a.lines s.site)) [])
    refine ⟨r', ?_⟩
    rw [bind_of_ok hr, hr', s.site_extend [] hsize, s.extend_extend [] [] hsize,
      ← Line.encode_append]
    rfl
  · exact hx.fails_bind fun r => (hf r).error

/-- A result that nobody reads. -/
theorem void (hx : Emits x a) : Emits (do let _ ← x) a := by
  constructor
  · intro hfault s
    obtain ⟨r, hr⟩ := hx.ok hfault s
    exact ⟨(), by rw [bind_of_ok hr]; rfl⟩
  · intro e he s
    obtain ⟨t, ht⟩ := hx.error e he s
    exact ⟨t, by rw [bind_of_error ht]⟩

theorem empty : Emits (pure ()) .empty :=
  of_apply rfl fun s => ⟨(), by rw [Segment.empty, Line.encode_nil, s.extend_ofSize_zero]; rfl⟩

/-- Steps in a row write their segments in a row. -/
theorem forM {γ : Type} {f : γ → Emit Unit} {gs : List γ} {as : List Segment}
    (h : List.Forall₂ (fun g a => Emits (f g) a) gs as) : Emits (gs.forM f) (.all as) := by
  induction h with
  | nil => exact empty
  | cons hg _ ih => exact hg.seq fun _ => ih

theorem line (l : Line) {operand : Option Operand}
    (h : operand = Operand.ofWord? l.word l.opcode.operandKind ∨ operand = none ∧ l.word = 0) :
    Emits (Emit.edit (Chunk.Edit.append l.opcode operand)) (.line l) :=
  of_apply rfl fun s => ⟨s.site.offset, by
    rw [Emit.append_apply l operand s h]
    simp only [Segment.line, Line.encode_cons, Line.encode_nil, List.append_nil]⟩

theorem push (v : Single) : Emits (Emit.push v) (.push v) := line ⟨.push, v.bits⟩ (.inl rfl)

theorem emit (op : Opcode) : Emits (Emit.emit op) (.emit op) :=
  (line ⟨op, 0⟩ (.inr ⟨rfl, rfl⟩)).void

/-- A load or a store declares its field first. -/
theorem access {op : Opcode} (hop : op.operandKind = .field) (name : String) :
    Emits (Emit.declare name >>= fun slot => do
      let _ ← Emit.edit (Chunk.Edit.append op (some (.offset slot.toUInt32)))) (.access op name) := by
  refine of_apply rfl fun s => ⟨(), ?_⟩
  have hslot : some (Operand.offset (slotFor s.site.names name).toUInt32) =
      Operand.ofWord? (slotFor s.site.names name).toUInt32 op.operandKind := by rw [hop]; rfl
  rw [bind_of_ok (Emit.declare_apply name s),
    bind_of_ok (Emit.append_apply ⟨op, (slotFor s.site.names name).toUInt32⟩ _ _ (.inl hslot))]
  simp only [Segment.access, Line.encode_cons, Line.encode_nil, List.append_nil, Emitter.extend,
    Footprint.ofSize]
  rfl

/-- A read looks its field up and reports one that is not declared. -/
theorem read (name : String) : Emits (Codegen.read name) (.read name) := by
  refine of_apply rfl fun s => ⟨(), ?_⟩
  have hslot : Emit.slot? name s = .ok (s.chunk.slot? name) s := rfl
  rw [Codegen.read, bind_of_ok hslot, s.chunk.slot?_eq_ite]
  simp only [Segment.read]
  by_cases hmem : name ∈ s.site.names
  · rw [if_pos (show name ∈ s.chunk.names from hmem), if_pos hmem]
    obtain ⟨_, h⟩ := ((line ⟨.loadField, (slotFor s.site.names name).toUInt32⟩
      (.inl rfl)).void).ok rfl s
    refine Eq.trans h ?_
    simp only [Emitter.extend, Segment.line, Footprint.ofSize, if_pos hmem]
  · rw [if_neg (show name ∉ s.chunk.names from hmem), if_neg hmem]
    show (Emit.report (.undeclaredRead name) >>= fun _ => Emit.push Single.zero >>= fun _ => pure ())
      s = _
    rw [bind_of_ok (Emit.report_apply _ s), bind_of_ok (Emit.push_apply _ _)]
    simp only [Emitter.extend, Footprint.ofSize, if_neg hmem, Line.encode_cons, Line.encode_nil,
      List.append_nil, Array.appendList_cons, Array.appendList_nil]
    rfl

end Emits
end FieldScript
