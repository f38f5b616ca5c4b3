/-
# Values given before and after compiling

A value for a field can be given before a program is compiled, when it seeds the
chunk, or afterwards, when it is set in the artifact.  The first way gives the
fields slots in the order of the presets, the second one keeps those of the
program.

The two agree on programs that neither way reports: every preset is a field of
the program, and none is read before it is declared.  The names are the same up
to their order (`Expr.perm_names_presets`), the codes up to the slots of fields
(`Expr.renamed_presets`), and machines that run them stay in step.  Slots are
words, which is enough for all fields if it is enough for all jumps: code has
more bytes than it assigns names (`sparse_rules`).
-/

import FieldScript.Command
import FieldScript.Proofs.Artifacts
import FieldScript.Proofs.Forward
import FieldScript.Proofs.Lockstep

namespace FieldScript
namespace Chunk

/-- The chunk with values written to its fields in order. -/
def writeAll (c : Chunk) (set : List (String × Single)) : Chunk :=
  { c with fields := (Field.writeAll set c.fields.toList).toArray }

theorem names_writeAll (c : Chunk) (set : List (String × Single)) :
    (c.writeAll set).names = (set.map Prod.fst).foldl declareName c.names :=
  Field.names_writeAll set c.fields.toList

theorem writeAll_cons (c : Chunk) (p : String × Single) (set : List (String × Single)) :
    c.writeAll (p :: set) = (c.writeAll [p]).writeAll set := rfl

theorem assign_eq (c : Chunk) (name : String) (x : Single) :
    c.assign name x = c.writeAll [(name, x)] := by
  rw [assign, declare_eq, writeAll]
  simp only [setValue, declareAll, Chunk.mk.injEq, true_and]
  refine Array.ext' ?_
  rw [Array.toList_modify]
  exact (Field.write_eq_modify name x c.fields.toList).symm

theorem setValue_of_mem {c : Chunk} {name : String} (h : name ∈ c.names) (x : Single) :
    c.setValue (slotFor c.names name) x = c.writeAll [(name, x)] := by
  rw [← assign_eq, assign, declare, slot?_eq_ite, if_pos h]

theorem names_writeAll_of_mem {c : Chunk} {set : List (String × Single)}
    (h : ∀ p ∈ set, p.1 ∈ c.names) : (c.writeAll set).names = c.names := by
  rw [names_writeAll]
  exact foldl_declareName_of_mem (List.forall_mem_map.2 h)

end Chunk

namespace Command

theorem seededChunk_eq (set : List (String × Single)) :
    seededChunk set = Chunk.empty.writeAll set := by
  rw [seededChunk]
  generalize Chunk.empty = c
  induction set generalizing c with
  | nil => rfl
  | cons p set ih =>
    obtain ⟨name, x⟩ := p
    rw [List.foldl_cons, ih]
    dsimp only
    rw [Chunk.assign_eq, ← Chunk.writeAll_cons]

/-- Values for fields that a chunk has are written without a report. -/
theorem setFields_eq {c : Chunk} {set : List (String × Single)} (h : ∀ p ∈ set, p.1 ∈ c.names) :
    setFields c set = (c.writeAll set, []) := by
  induction set generalizing c with
  | nil => rfl
  | cons p set ih =>
    obtain ⟨name, x⟩ := p
    rw [List.forall_mem_cons] at h
    have hnames : (c.writeAll [(name, x)]).names = c.names :=
      Chunk.names_writeAll_of_mem (List.forall_mem_singleton.2 h.1)
    rw [setFields, Chunk.slot?_eq_ite, if_pos h.1]
    dsimp only
    rw [Chunk.setValue_of_mem h.1, ih (hnames.symm ▸ h.2), ← Chunk.writeAll_cons]

end Command

/-! ### The number of fields -/

/-- A piece of code assigns no more names than it has bytes. -/
def Footprint.Sparse (f : Footprint) : Prop := f.assigned.length ≤ f.size

theorem Footprint.Sparse.seq {a b : Footprint} (ha : a.Sparse) (hb : b.Sparse) :
    (a.seq b).Sparse := by
  show (a.assigned ++ b.assigned).length ≤ a.size + b.size
  rw [List.length_append]
  exact Nat.add_le_add ha hb

theorem Footprint.sparse_ofSize (size : Nat) : (Footprint.ofSize size).Sparse := Nat.zero_le size

open Footprint in
theorem sparse_rules :
    Layout.Rules (fun g => (g : Footprint).Sparse) (fun c => (c : Footprint).Sparse) where
  empty := sparse_ofSize 0
  push _ := sparse_ofSize _
  emit _ := sparse_ofSize _
  read _ := Nat.zero_le 5
  access _ _ := Opcode.length_pos _
  seq := .seq
  unknownCall _ := Nat.zero_le _
  faulty _ h := h
  truthValue hc := hc.seq (sparse_ofSize 15)
  conditional hc hg := (hc.seq hg).seq (sparse_ofSize 5)
  test _ _ := sparse_ofSize 5
  behind := .seq
  branch _ _ _ hl hr := (hl.seq hr).seq (sparse_ofSize 5)

namespace Expr

theorem read_laidOut (e : Expr) (c : Chunk) (name : String) :
    Field.read name (e.laidOut c).fields.toList = Field.read name c.fields.toList :=
  Field.read_declareAll e.program.assigned name c.fields.toList

/-- Code that is short enough for its jumps has few enough fields for a word. -/
theorem fields_laidOut_le (e : Expr) {c : Chunk} (hcode : c.code = #[]) (hc : c.fields.size ≤ 1)
    (hsize : (e.laidOut c).size < UInt32.size) : (e.laidOut c).fields.size ≤ UInt32.size := by
  have hsparse : e.program.assigned.length ≤ e.program.size := e.program_all sparse_rules
  have hlength := length_foldl_declareName_le c.names e.program.assigned
  rw [← e.names_laidOut_eq, Chunk.length_names, Chunk.length_names] at hlength
  rw [e.size_laidOut hcode] at hsize
  omega

section Presets

variable {e : Expr} {set : List (String × Single)}
  (hdeclared : ∀ p ∈ set, p.1 ∈ (e.laidOut Chunk.empty).names)

include hdeclared

/-- Presets before and after compiling come to the same names, in another
order. -/
theorem perm_names_presets :
    (e.laidOut (Chunk.empty.writeAll set)).names.Perm
      ((e.laidOut Chunk.empty).writeAll set).names := by
  have hempty : Chunk.empty.names.Nodup := by decide
  rw [Chunk.names_writeAll_of_mem hdeclared]
  rw [e.names_laidOut_eq] at hdeclared
  rw [e.names_laidOut_eq, e.names_laidOut_eq, Chunk.names_writeAll]
  refine (List.perm_ext_iff_of_nodup (nodup_foldl_declareName (nodup_foldl_declareName hempty _) _)
    (nodup_foldl_declareName hempty _)).2 fun name => ?_
  rw [mem_foldl_declareName, mem_foldl_declareName, mem_foldl_declareName]
  constructor
  · rintro ((hname | hname) | hname)
    · exact .inl hname
    · obtain ⟨p, hp, rfl⟩ := List.mem_map.1 hname
      exact mem_foldl_declareName.1 (hdeclared p hp)
    · exact .inr hname
  · rintro (hname | hname)
    · exact .inl (.inl hname)
    · exact .inr hname

/-- Presets before and after compiling come to the same code but for slots. -/
theorem renamed_presets (hfault : e.program.fault = none)
    (hquiet : ∀ p ∈ set, Event.undeclaredRead p.1 ∉ (e.compileInto Chunk.empty).log) :
    ∃ is js, (e.laidOut (Chunk.empty.writeAll set)).instrs? = .ok is ∧
      ((e.laidOut Chunk.empty).writeAll set).instrs? = .ok js ∧
      List.Forall₂ (Instr.Renamed (e.laidOut (Chunk.empty.writeAll set))
        ((e.laidOut Chunk.empty).writeAll set)) is js := by
  have hevents : ∀ name ∈ set.map Prod.fst,
      Event.undeclaredRead name ∉ e.program.events ⟨0, Chunk.empty.names⟩ := by
    refine List.forall_mem_map.2 fun p hp hmem => hquiet p hp ?_
    rw [compileInto_eq hfault]
    exact List.mem_append_left _ hmem
  have hseeded : ∀ name, name ∈ (Chunk.empty.writeAll set).names ↔
      name ∈ Chunk.empty.names ∨ name ∈ set.map Prod.fst := fun name => by
    rw [Chunk.names_writeAll, mem_foldl_declareName]
  exact ⟨_, _, e.instrs?_laidOut rfl, e.instrs?_laidOut (c := Chunk.empty) rfl,
    e.renamed_laidOut hseeded hevents rfl (Chunk.names_writeAll_of_mem hdeclared)⟩

/-- Presets before and after compiling lead to the same end. -/
theorem run_presets (hfault : e.program.fault = none)
    (hquiet : ∀ p ∈ set, Event.undeclaredRead p.1 ∉ (e.compileInto Chunk.empty).log)
    (hsize : e.program.size < UInt32.size) (m : Machine) :
    let before := m.run (e.laidOut (Chunk.empty.writeAll set))
    let after := m.run ((e.laidOut Chunk.empty).writeAll set)
    before.ending = .returned ∧ after.ending = .returned ∧ before.machine = after.machine ∧
      ∀ name, before.chunk.value? name = after.chunk.value? name := by
  have hperm := perm_names_presets hdeclared
  have hsizeBefore : (e.laidOut (Chunk.empty.writeAll set)).size < UInt32.size := by
    rwa [e.size_laidOut rfl]
  have hfields : ((e.laidOut Chunk.empty).writeAll set).fields.size ≤ UInt32.size := by
    rw [← Chunk.length_names, Chunk.names_writeAll_of_mem hdeclared, Chunk.length_names]
    exact e.fields_laidOut_le rfl (Nat.le_refl 1) (by rwa [e.size_laidOut rfl])
  have hfieldsBefore : (e.laidOut (Chunk.empty.writeAll set)).fields.size ≤ UInt32.size := by
    rwa [← Chunk.length_names, hperm.length_eq, Chunk.length_names]
  have hread : ∀ name, Field.read name (e.laidOut (Chunk.empty.writeAll set)).fields.toList =
      Field.read name ((e.laidOut Chunk.empty).writeAll set).fields.toList := fun name =>
    (e.read_laidOut _ name).trans
      (Field.read_writeAll_congr (e.read_laidOut Chunk.empty) set name).symm
  obtain ⟨is, js, his, hjs, hrenamed⟩ := renamed_presets hdeclared hfault hquiet
  obtain ⟨is', w, hw⟩ := (Chunk.verify_eq_ok_iff _).1 (verify_laidOut rfl hfault hsizeBefore)
  obtain rfl : is = is' := Except.ok.inj (his.symm.trans hw.decode)
  have hending := ending_laidOut rfl hfault hsizeBefore m
  obtain ⟨hsame, hmachine, hvalues⟩ := hw.run_alike hjs hrenamed hfieldsBefore hfields
    (fun _ => hperm.mem_iff) hread m
  exact ⟨hending, hsame ▸ hending, hmachine, hvalues⟩

end Presets

/-- **Presets before and after compiling agree.**  If a tree compiles, declares
every preset and reports no read of one before it is declared, then compiling it
with the presets and setting them in the artifact give the same names, codes of
one size that differ in the slots of fields only, and runs that end with the same
value for every name. -/
theorem presets_agree {e : Expr} {set : List (String × Single)} {f : Chunk}
    (hresult : (e.compileInto Chunk.empty).result = .ok f)
    (hquiet : ∀ p ∈ set, Event.undeclaredRead p.1 ∉ (e.compileInto Chunk.empty).log)
    (hdeclared : ∀ p ∈ set, p.1 ∈ f.names) (hwritable : f.Writable) :
    ∃ before after : Chunk,
      (e.compileInto (Command.seededChunk set)).result = .ok before ∧
      (∃ loaded, Chunk.ofBytes f.toBytes = .ok loaded ∧
        Command.setFields loaded set = (after, [])) ∧
      before.names.Perm after.names ∧ before.size = after.size ∧
      (∃ is js, before.instrs? = .ok is ∧ after.instrs? = .ok js ∧
        List.Forall₂ (Instr.Renamed before after) is js) ∧
      (f.size < UInt32.size → ∀ m : Machine,
        (m.run before).ending = .returned ∧ (m.run after).ending = .returned ∧
          (m.run before).machine = (m.run after).machine ∧
          ∀ name, (m.run before).chunk.value? name = (m.run after).chunk.value? name) := by
  obtain ⟨hfault, rfl⟩ := eq_laidOut_of_result hresult
  have hloaded := Chunk.ofBytes_append hwritable []
  rw [List.append_nil] at hloaded
  refine ⟨e.laidOut (Chunk.empty.writeAll set), (e.laidOut Chunk.empty).writeAll set, ?_,
    ⟨_, hloaded, Command.setFields_eq hdeclared⟩, perm_names_presets hdeclared, ?_,
    renamed_presets hdeclared hfault hquiet, fun hsize => ?_⟩
  · rw [Command.seededChunk_eq, compileInto_eq hfault]
  · exact (e.size_laidOut rfl).trans (e.size_laidOut rfl).symm
  · rw [e.size_laidOut rfl] at hsize
    exact run_presets hdeclared hfault hquiet hsize

/-- `if (position.x > 1) { b = 1; } c = b;`, which reads `b` behind a body that
declares it. -/
def guardedField : Expr :=
  block [conditional (cmp .gt (ident "position.x") (literal Single.one))
    (assign "b" (literal Single.one)), assign "c" (ident "b")]

/-- Values for its fields, `b` twice.  With them `c` has a slot before `b`. -/
def guardedPresets : List (String × Single) :=
  [("c", Single.one), ("b", Single.one), ("position.x", Single.zero), ("b", ⟨0x40000000⟩)]

theorem presets_guardedField :
    (guardedField.laidOut (Chunk.empty.writeAll guardedPresets)).code ≠
        (guardedField.laidOut Chunk.empty).code ∧
      ∃ before after : Chunk,
        (guardedField.compileInto (Command.seededChunk guardedPresets)).result = .ok before ∧
        (∃ loaded, Chunk.ofBytes (guardedField.laidOut Chunk.empty).toBytes = .ok loaded ∧
          Command.setFields loaded guardedPresets = (after, [])) ∧
        ∀ m : Machine, (m.run before).ending = .returned ∧
          ∀ name, (m.run before).chunk.value? name = (m.run after).chunk.value? name := by
  have hresult : (guardedField.compileInto Chunk.empty).result =
      .ok (guardedField.laidOut Chunk.empty) := by
    rw [result_compileInto]
    rfl
  have hquiet : ∀ p ∈ guardedPresets,
      Event.undeclaredRead p.1 ∉ (guardedField.compileInto Chunk.empty).log := by
    decide +kernel
  have hwritable : (guardedField.laidOut Chunk.empty).Writable :=
    ⟨by decide, by decide, by decide +kernel⟩
  obtain ⟨before, after, hbefore, hafter, _, _, _, hrun⟩ :=
    presets_agree hresult hquiet (by decide +kernel) hwritable
  refine ⟨by decide +kernel, before, after, hbefore, hafter, fun m => ?_⟩
  obtain ⟨hending, _, _, hvalues⟩ := hrun (by decide) m
  exact ⟨hending, hvalues⟩

end Expr
end FieldScript
