/-
# Code that differs in the numbers of fields

A name that is declared before a program is compiled takes a slot in front of
those that the program declares, so the same tree compiles to other code.  How
other is said line by line: the opcodes are the same, and so are the operands,
but for the slot of a field, which is the slot of one name on both sides
(`Line.Renamed`, `Instr.Renamed`).

The two compilations are followed side by side.  Their sites are *twins*: at the
same offset, and with the same names but for the presets, which the first site
has from the start.  A read of a name that is not declared is compiled to a
constant, so it is needed that no preset is read before it is declared: with a
preset the constant would be a load (`Segment.Renames.read`).
-/

import FieldScript.Proofs.Backpatching
import Mathlib.Data.List.Forall2

namespace FieldScript

/-- One line with the slots that two rows of names have for its field. -/
inductive Line.Renamed (ns ms : List String) : Line → Line → Prop
  | same {l : Line} (hkind : l.opcode.operandKind ≠ .field) : Renamed ns ms l l
  | field {op : Opcode} {name : String} (hkind : op.operandKind = .field) (hn : name ∈ ns)
      (hm : name ∈ ms) :
      Renamed ns ms ⟨op, (slotFor ns name).toUInt32⟩ ⟨op, (slotFor ms name).toUInt32⟩

theorem Line.Renamed.push {ns ms : List String} (word : UInt32) :
    Renamed ns ms ⟨.push, word⟩ ⟨.push, word⟩ := .same (by simp [Opcode.operandKind])

theorem Line.Renamed.jump {ns ms : List String} (word : UInt32) :
    Renamed ns ms ⟨.jump, word⟩ ⟨.jump, word⟩ := .same (by simp [Opcode.operandKind])

/-- A piece of code stands at two sites that differ in presets only: names that
are declared at the first one from the start.  The code reports no read of a
preset at the second one, and the names of both sites go on to given rows. -/
structure Twin (presets ns ms : List String) (s t : Site) (f : Footprint) : Prop where
  offset : s.offset = t.offset
  names : ∀ name, name ∈ s.names ↔ name ∈ t.names ∨ name ∈ presets
  left : (s.after f).names <+: ns
  right : (t.after f).names <+: ms
  quiet : ∀ name ∈ presets, Event.undeclaredRead name ∉ f.events t

section Renaming

variable {presets ns ms : List String}

namespace Twin

variable {s t : Site}

theorem seq {a b : Footprint} (h : Twin presets ns ms s t (a.seq b)) :
    Twin presets ns ms s t a ∧ Twin presets ns ms (s.after a) (t.after a) b := by
  obtain ⟨hoffset, hnames, hleft, hright, hquiet⟩ := h
  rw [Site.after_seq] at hleft hright
  have hquiet : ∀ name ∈ presets, Event.undeclaredRead name ∉ a.events t ∧
      Event.undeclaredRead name ∉ b.events (t.after a) := fun name hname =>
    not_or.1 fun hmem => hquiet name hname (List.mem_append.2 hmem)
  refine ⟨⟨hoffset, hnames, ?_, ?_, fun name hname => (hquiet name hname).1⟩,
    ⟨?_, ?_, hleft, hright, fun name hname => (hquiet name hname).2⟩⟩
  · exact (Site.prefix_after _ b).trans hleft
  · exact (Site.prefix_after _ b).trans hright
  · simp only [Site.after, hoffset]
  · intro name
    simp only [Site.after, mem_foldl_declareName, hnames]
    rw [or_right_comm]

end Twin

variable (presets ns ms)

def Segment.Renames (g : Segment) : Prop :=
  ∀ s t : Site, Twin presets ns ms s t g →
    List.Forall₂ (Line.Renamed ns ms) (g.lines s) (g.lines t)

def JumpSegment.Renames (c : JumpSegment) : Prop :=
  ∀ (exits : Exits) (s t : Site), Twin presets ns ms s t c →
    List.Forall₂ (Line.Renamed ns ms) (c.lines exits s) (c.lines exits t)

variable {presets ns ms}

theorem Segment.Renames.line {l : Line} (h : l.opcode.operandKind ≠ .field) :
    (Segment.line l).Renames presets ns ms := fun _ _ _ => .cons (.same h) .nil

theorem Segment.Renames.read (name : String) : (Segment.read name).Renames presets ns ms := by
  intro s t h
  by_cases hmem : name ∈ t.names
  · have hleft : name ∈ s.names := (h.names name).2 (.inl hmem)
    simp only [Segment.read, if_pos hmem, if_pos hleft]
    have hns : s.names <+: ns := h.left
    have hms : t.names <+: ms := h.right
    rw [← slotFor_of_isPrefix hns hleft, ← slotFor_of_isPrefix hms hmem]
    exact .cons (.field rfl (hns.subset hleft) (hms.subset hmem)) .nil
  · have hquiet : name ∉ presets := fun hpreset =>
      h.quiet name hpreset (by simp [Segment.read, hmem])
    have hleft : name ∉ s.names := fun hs => ((h.names name).1 hs).elim hmem hquiet
    simp only [Segment.read, if_neg hmem, if_neg hleft]
    exact .cons (.push _) .nil

theorem Segment.Renames.access {op : Opcode} (name : String) (hop : op.operandKind = .field) :
    (Segment.access op name).Renames presets ns ms := by
  intro s t h
  -- the slot that an access takes is the one that the name has at the end
  have hslot : ∀ {site : Site} {row : List String},
      (site.after (Segment.access op name)).names <+: row →
        name ∈ row ∧ slotFor site.names name = slotFor row name := by
    intro site row hrow
    have hrow : declareName site.names name <+: row := hrow
    have hmem := mem_declareName site.names name
    rw [slotFor_of_isPrefix hrow hmem, slotFor_declareName]
    exact ⟨hrow.subset hmem, rfl⟩
  obtain ⟨hleft, hslotLeft⟩ := hslot h.left
  obtain ⟨hright, hslotRight⟩ := hslot h.right
  simp only [Segment.access, hslotLeft, hslotRight]
  exact .cons (.field hop hleft hright) .nil

theorem Segment.Renames.seq {a b : Segment} (ha : a.Renames presets ns ms)
    (hb : b.Renames presets ns ms) : (a.seq b).Renames presets ns ms := by
  intro s t h
  obtain ⟨hleft, hright⟩ := h.seq
  exact List.rel_append (ha s t hleft) (hb _ _ hright)

theorem Segment.Renames.truthValue {c : JumpSegment} (hc : c.Renames presets ns ms) :
    (Segment.truthValue c).Renames presets ns ms := by
  intro s t h
  simp only [Segment.truthValue, h.offset]
  exact List.rel_append (hc _ s t h.seq.1)
    (.cons (.push _) (.cons (.jump _) (.cons (.push _) .nil)))

theorem Segment.Renames.conditional {c : JumpSegment} {g : Segment} (hc : c.Renames presets ns ms)
    (hg : g.Renames presets ns ms) : (Segment.conditional c g).Renames presets ns ms := by
  intro s t h
  -- the report of the conditional itself is no read
  have hparts : Twin presets ns ms s t ((c : Footprint).seq g) := by
    obtain ⟨hoffset, hnames, hleft, hright, hquiet⟩ := h
    rw [Site.after_conditional] at hleft hright
    refine ⟨hoffset, hnames, ?_, ?_, fun name hname hmem => ?_⟩
    · rwa [Site.after_seq]
    · rwa [Site.after_seq]
    · exact hquiet name hname (List.mem_append_left _ hmem)
  obtain ⟨hleft, hright⟩ := hparts.seq
  simp only [Segment.conditional, h.offset]
  exact List.rel_append (List.rel_append (hc _ s t hleft) (hg _ _ hright))
    (.cons (.jump _) .nil)

theorem JumpSegment.Renames.test (op : CmpOp) (junction : Junction) :
    (JumpSegment.test op junction).Renames presets ns ms := by
  intro exits s t _
  have hkind : (op.testOpcode junction).operandKind ≠ .field := by
    have htarget : (op.testOpcode junction).operandKind = .target :=
      of_decide_eq_true (op.isJump_testOpcode junction)
    simp [htarget]
  exact .cons (.same hkind) .nil

theorem JumpSegment.Renames.behind {a : Segment} {c : JumpSegment} (ha : a.Renames presets ns ms)
    (hc : c.Renames presets ns ms) : (JumpSegment.behind a c).Renames presets ns ms := by
  intro exits s t h
  obtain ⟨hleft, hright⟩ := h.seq
  exact List.rel_append (ha s t hleft) (hc exits _ _ hright)

theorem JumpSegment.Renames.branch (junction : Junction) {l r : JumpSegment}
    (hl : l.Renames presets ns ms) (hr : r.Renames presets ns ms) :
    (JumpSegment.branch junction l r).Renames presets ns ms := by
  intro exits s t h
  obtain ⟨hleft, hright⟩ := h.seq.1.seq
  simp only [JumpSegment.branch, h.offset]
  exact List.rel_append (List.rel_append (hl _ s t hleft) (hr exits _ _ hright))
    (.cons (.jump _) .nil)

theorem renames_rules :
    Layout.Rules (Segment.Renames presets ns ms) (JumpSegment.Renames presets ns ms) where
  empty _ _ _ := .nil
  push _ _ _ _ := .cons (.push _) .nil
  emit h := .line (by simp [h])
  read := .read
  access := .access
  seq := .seq
  unknownCall _ _ _ _ := .cons (.push _) .nil
  faulty _ hg s t h := hg s t ⟨h.offset, h.names, h.left, h.right, h.quiet⟩
  truthValue := .truthValue
  conditional := .conditional
  test := .test
  behind := .behind
  branch := .branch

end Renaming

namespace Instr

/-- One instruction with the slots that two chunks have for its field. -/
inductive Renamed (c d : Chunk) : Instr → Instr → Prop
  | same {i : Instr} (hkind : i.opcode.operandKind ≠ .field) : Renamed c d i i
  | field {offset : Nat} {op : Opcode} {name : String} {slot slot' : Nat}
      (hkind : op.operandKind = .field) (hslot : c.slot? name = some slot)
      (hslot' : d.slot? name = some slot') :
      Renamed c d ⟨offset, op, some (.offset slot.toUInt32)⟩
        ⟨offset, op, some (.offset slot'.toUInt32)⟩

theorem exists_renamed {c d : Chunk} {is js : List Instr} (h : List.Forall₂ (Renamed c d) is js)
    {i : Instr} (hi : i ∈ is) : ∃ j ∈ js, Renamed c d i j := by
  induction h with
  | nil => exact absurd hi List.not_mem_nil
  | @cons i' j is js hij _ ih =>
    rcases List.mem_cons.1 hi with rfl | hi
    · exact ⟨j, List.mem_cons_self .., hij⟩
    · obtain ⟨j', hj', hij'⟩ := ih hi
      exact ⟨j', List.mem_cons_of_mem j hj', hij'⟩

end Instr

theorem Line.Renamed.instr {c d : Chunk} {l m : Line} (h : Line.Renamed c.names d.names l m)
    (offset : Nat) : Instr.Renamed c d (l.instr offset) (m.instr offset) := by
  cases h with
  | same hkind => exact .same hkind
  | @field op name hkind hn hm =>
    have hslot : c.slot? name = some (slotFor c.names name) := by
      rw [Chunk.slot?_eq_ite, if_pos hn]
    have hslot' : d.slot? name = some (slotFor d.names name) := by
      rw [Chunk.slot?_eq_ite, if_pos hm]
    simp only [Line.instr, Operand.ofWord?, hkind]
    exact .field hkind hslot hslot'

theorem Line.renamed_instrsAt {c d : Chunk} {ls ms : List Line}
    (h : List.Forall₂ (Line.Renamed c.names d.names) ls ms) (offset : Nat) :
    List.Forall₂ (Instr.Renamed c d) (instrsAt offset ls) (instrsAt offset ms) := by
  induction h generalizing offset with
  | nil => exact .nil
  | @cons l m ls ms hlm _ ih =>
    have hop : l.opcode = m.opcode := by cases hlm <;> rfl
    rw [instrsAt_cons, instrsAt_cons, hop]
    exact .cons (hlm.instr offset) (ih _)

namespace Expr

/-- **Presets only renumber fields.**  A tree compiled with presets is the tree
compiled without them, but for the slots of fields. -/
theorem renamed_laidOut (e : Expr) {c d f g : Chunk} {presets : List String}
    (hnames : ∀ name, name ∈ c.names ↔ name ∈ d.names ∨ name ∈ presets)
    (hquiet : ∀ name ∈ presets, Event.undeclaredRead name ∉ e.program.events ⟨0, d.names⟩)
    (hf : f.names = (e.laidOut c).names) (hg : g.names = (e.laidOut d).names) :
    List.Forall₂ (Instr.Renamed f g) (Line.instrsAt 0 (e.program.lines ⟨0, c.names⟩))
      (Line.instrsAt 0 (e.program.lines ⟨0, d.names⟩)) := by
  have hafter : ∀ {b h : Chunk}, h.names = (e.laidOut b).names →
      (Site.after ⟨0, b.names⟩ e.program).names <+: h.names := by
    intro b h hh
    have hnames : (Site.after ⟨0, b.names⟩ e.program).names = h.names := by
      rw [hh, e.names_laidOut, program, Segment.seq, Site.after_seq]
      rfl
    exact hnames ▸ List.prefix_rfl
  have htwin : Twin presets f.names g.names ⟨0, c.names⟩ ⟨0, d.names⟩ e.program :=
    ⟨rfl, hnames, hafter hf, hafter hg, hquiet⟩
  exact Line.renamed_instrsAt (e.program_all renames_rules _ _ htwin) 0

end Expr
end FieldScript
