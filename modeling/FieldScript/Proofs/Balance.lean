/-
# Compiled code passes the verifier

The depth of the stack in compiled code is known while it is laid out: a
statement leaves the depth as it is, a value adds one, and a condition has its
depth again at each of its exits.

`Linked` says this of a piece of code as a linker would.  The piece defines the
depths at some offsets and needs the depths at others; any map from offsets to
depths that agrees with the piece's own and supplies what it needs fits all
instructions in it.  Two pieces in a row are linked if what the first one needs
is defined by the second one or still needed (`Linked.append`).  A whole program
needs nothing, so there is a map that fits all its instructions, and with such a
map no check of the verifier fails.
-/

import FieldScript.Proofs.Backpatching
import FieldScript.Proofs.Walk

namespace FieldScript

/-- The depth with which each offset is reached; nothing for an offset that is
not the start of an instruction. -/
abbrev DepthMap := Nat → Option Nat

namespace DepthMap

/-- One offset with its depth. -/
def single (offset depth : Nat) : DepthMap := fun o => if o = offset then some depth else none

/-- One map up to an offset and another one from there on. -/
def glue (a b : DepthMap) (mid : Nat) : DepthMap := fun o => if o < mid then a o else b o

/-- An instruction has its depth, which is enough for what it pops, and whatever
can follow it has the depth that it leaves.  A field that it addresses exists. -/
structure Fits (depths : DepthMap) (fields : Nat) (i : Instr) (depth : Nat) : Prop where
  here : depths i.offset = some depth
  pops : i.opcode.pops ≤ depth
  falls : i.opcode.fallsThrough = true → depths i.next = some (i.opcode.depthAfter depth)
  jumps : ∀ target, i.target? = some target → depths target = some (i.opcode.depthAfter depth)
  field : ∀ slot, i.opcode.operandKind = .field → i.operand = some (.offset slot) →
    slot.toNat < fields

/-- All given offsets have the given depths. -/
def Has (depths : DepthMap) (labels : List (Nat × Nat)) : Prop :=
  ∀ p ∈ labels, depths p.1 = some p.2

end DepthMap

/-- The instructions of lines that start at an offset define the first depths,
if they are supplied with the second ones. -/
def Linked (fields base : Nat) (ls : List Line) (defines needs : List (Nat × Nat)) : Prop :=
  ∃ own : DepthMap, (∀ o d, own o = some d → ∃ i ∈ Line.instrsAt base ls, i.offset = o) ∧
    ∀ depths : DepthMap, (∀ o, base ≤ o → o < base + Line.total ls → depths o = own o) →
      depths.Has needs →
      depths.Has defines ∧ ∀ i ∈ Line.instrsAt base ls, ∃ d, depths.Fits fields i d

namespace Linked

variable {fields base mid : Nat} {ls ms : List Line} {defines defines₁ defines₂ needs needs₁ needs₂ :
  List (Nat × Nat)}

theorem nil (h : defines ⊆ needs) : Linked fields base [] defines needs :=
  ⟨fun _ => none, nofun, fun _ _ hneeds =>
    ⟨fun p hp => hneeds p (h hp), fun _ hi => absurd hi List.not_mem_nil⟩⟩

/-- **Linking.**  The first piece may need what the second one defines. -/
theorem append (h₁ : Linked fields base ls defines₁ needs₁)
    (h₂ : Linked fields mid ms defines₂ needs₂) (hmid : mid = base + Line.total ls)
    (hneeds : needs₁ ⊆ defines₂ ++ needs₂) :
    Linked fields base (ls ++ ms) (defines₁ ++ defines₂) needs₂ := by
  subst hmid
  obtain ⟨own₁, hown₁, hlink₁⟩ := h₁
  obtain ⟨own₂, hown₂, hlink₂⟩ := h₂
  refine ⟨own₁.glue own₂ (base + Line.total ls), ?_, ?_⟩
  · intro o d ho
    rw [Line.instrsAt_append]
    unfold DepthMap.glue at ho
    split at ho
    · obtain ⟨i, hi, hoffset⟩ := hown₁ o d ho
      exact ⟨i, List.mem_append_left _ hi, hoffset⟩
    · obtain ⟨i, hi, hoffset⟩ := hown₂ o d ho
      exact ⟨i, List.mem_append_right _ hi, hoffset⟩
  · intro depths hagrees hhas
    rw [Line.total_append] at hagrees
    obtain ⟨hdefines₂, hfits₂⟩ := hlink₂ depths (fun o hle hlt => by
      rw [hagrees o (by omega) (by omega), DepthMap.glue, if_neg (by omega)]) hhas
    have hhas₁ : depths.Has needs₁ := fun p hp =>
      (List.mem_append.1 (hneeds hp)).elim (hdefines₂ p) (hhas p)
    obtain ⟨hdefines₁, hfits₁⟩ := hlink₁ depths (fun o hle hlt => by
      rw [hagrees o hle (by omega), DepthMap.glue, if_pos hlt]) hhas₁
    refine ⟨fun p hp => (List.mem_append.1 hp).elim (hdefines₁ p) (hdefines₂ p), fun i hi => ?_⟩
    rw [Line.instrsAt_append] at hi
    exact (List.mem_append.1 hi).elim (hfits₁ i) (hfits₂ i)

/-- A piece may define less and need more. -/
theorem mono (h : Linked fields base ls defines₁ needs₁) (hdefines : defines₂ ⊆ defines₁)
    (hneeds : needs₁ ⊆ needs₂) : Linked fields base ls defines₂ needs₂ := by
  obtain ⟨own, hown, hlink⟩ := h
  refine ⟨own, hown, fun depths hagrees hhas => ?_⟩
  obtain ⟨hhas', hfits⟩ := hlink depths hagrees fun p hp => hhas p (hneeds hp)
  exact ⟨fun p hp => hhas' p (hdefines hp), hfits⟩

/-- One line needs the depths of whatever can follow it. -/
theorem line {l : Line} {depth : Nat} (hpops : l.opcode.pops ≤ depth)
    (hfalls : l.opcode.fallsThrough = true →
      (base + l.opcode.length, l.opcode.depthAfter depth) ∈ needs)
    (hjumps : l.opcode.operandKind = .target → (l.word.toNat, l.opcode.depthAfter depth) ∈ needs)
    (hfield : l.opcode.operandKind = .field → l.word.toNat < fields) :
    Linked fields base [l] [(base, depth)] needs := by
  refine ⟨.single base depth, ?_, ?_⟩
  · intro o d ho
    unfold DepthMap.single at ho
    split at ho
    · rename_i heq
      exact ⟨l.instr base, List.mem_singleton_self _, heq.symm⟩
    · cases ho
  · intro depths hagrees hhas
    have hdepth : depths base = some depth := by
      have hpos := l.opcode.length_pos
      rw [hagrees base (Nat.le_refl base) (by rw [Line.total_cons]; omega), DepthMap.single,
        if_pos rfl]
    refine ⟨fun p hp => by rw [List.mem_singleton.1 hp]; exact hdepth, fun i hi => ?_⟩
    rw [Line.instrsAt_cons, Line.instrsAt_nil, List.mem_singleton] at hi
    subst hi
    refine ⟨depth, hdepth, hpops, fun h => hhas _ (hfalls h), ?_, ?_⟩
    · intro target htarget
      rw [Line.target?_instr] at htarget
      split at htarget
      · rename_i hkind
        rw [← Option.some.inj htarget]
        exact hhas _ (hjumps hkind)
      · cases htarget
    · intro slot hkind hslot
      rw [Line.instr_opcode] at hkind
      rw [Line.instr, hkind] at hslot
      cases hslot
      exact hfield hkind

end Linked

/-! ### Segments -/

/-- A word keeps the offset of a site, and its names are among the fields. -/
structure Site.Within (s : Site) (fields : Nat) : Prop where
  offset : s.offset < UInt32.size
  names : s.names.length ≤ fields

theorem Site.Within.of_after {s : Site} {f : Footprint} {fields : Nat}
    (h : (s.after f).Within fields) : s.Within fields :=
  ⟨Nat.lt_of_le_of_lt (Nat.le_add_right _ _) h.offset,
    Nat.le_trans (s.prefix_after f).length_le h.names⟩

/-- A segment is entered with one depth and left with another. -/
def Segment.Balanced (g : Segment) (d d' : Nat) : Prop :=
  ∀ (fields : Nat) (site : Site), (site.after g).Within fields →
    Linked fields site.offset (g.lines site) [(site.offset, d)] [((site.after g).offset, d')]

/-- A condition is entered with one depth and has another one at its exits and
where it falls through. -/
def JumpSegment.Balanced (c : JumpSegment) (d d' : Nat) : Prop :=
  ∀ (fields : Nat) (exits : Exits) (site : Site), (site.after c).Within fields →
    exits.onTrue < UInt32.size → exits.onFalse < UInt32.size →
    Linked fields site.offset (c.lines exits site) [(site.offset, d)]
      [((site.after c).offset, d'), (exits.onTrue, d'), (exits.onFalse, d')]

section Segments

variable {a b g : Segment} {c l r : JumpSegment} {d d₁ d₂ : Nat}

theorem Segment.Balanced.seq (ha : a.Balanced d d₁) (hb : b.Balanced d₁ d₂) :
    (a.seq b).Balanced d d₂ := by
  intro fields site hwithin
  rw [Segment.seq, Site.after_seq] at hwithin ⊢
  exact ((ha fields site hwithin.of_after).append (hb fields _ hwithin) (a.offset_after site)
    (by simp)).mono (by simp) (List.Subset.refl _)

theorem Segment.Balanced.empty : Segment.empty.Balanced d d :=
  fun _ _ _ => .nil (List.Subset.refl _)

/-- What a segment reports has no part in its depths. -/
theorem Segment.Balanced.congr (ha : a.Balanced d d₁) (hlines : b.lines = a.lines)
    (hafter : ∀ site : Site, site.after b = site.after a) : b.Balanced d d₁ := by
  intro fields site hwithin
  rw [hafter] at hwithin ⊢
  rw [hlines]
  exact ha fields site hwithin

/-- A segment of one line that does not jump. -/
theorem Segment.linked_line {fields : Nat} {site : Site} {l : Line}
    (hwithin : (site.after g).Within fields) (hlines : g.lines site = [l])
    (hpops : l.opcode.pops ≤ d) (hkind : l.opcode.operandKind ≠ .target)
    (hfield : l.opcode.operandKind = .field → l.word.toNat < (site.after g).names.length) :
    Linked fields site.offset (g.lines site) [(site.offset, d)]
      [((site.after g).offset, l.opcode.depthAfter d)] := by
  have hafter : (site.after g).offset = site.offset + l.opcode.length := by
    rw [g.offset_after, hlines, Line.total_cons, Line.total_nil, Nat.add_zero]
  rw [hlines, hafter]
  exact .line hpops (fun _ => List.mem_singleton_self _) (fun h => absurd h hkind)
    fun h => Nat.lt_of_lt_of_le (hfield h) hwithin.names

theorem Segment.Balanced.emit {op : Opcode} (hpops : op.pops ≤ d) (hkind : op.operandKind = .none) :
    (Segment.emit op).Balanced d (op.depthAfter d) := fun _ _ hwithin =>
  linked_line hwithin rfl hpops (by rw [hkind]; simp) fun h => by rw [hkind] at h; cases h

theorem Segment.Balanced.discard : (Segment.emit .discard).Balanced (d + 1) d :=
  .emit (Nat.le_add_left 1 d) rfl

theorem Segment.Balanced.push (x : Single) : (Segment.push x).Balanced d (d + 1) :=
  fun _ _ hwithin => linked_line hwithin rfl (Nat.zero_le d) (by simp [Opcode.operandKind]) nofun

/-- A slot is not beyond its table, even if a word cannot keep it. -/
theorem toNat_slot_lt {slot count : Nat} (h : slot < count) : slot.toUInt32.toNat < count :=
  Nat.lt_of_le_of_lt (Nat.mod_le slot UInt32.size) h

theorem Segment.Balanced.read (name : String) : (Segment.read name).Balanced d (d + 1) := by
  intro fields site hwithin
  by_cases h : name ∈ site.names
  · exact linked_line hwithin (if_pos h) (Nat.zero_le d) (by simp [Opcode.operandKind])
      fun _ => toNat_slot_lt (slotFor_lt h)
  · exact linked_line hwithin (if_neg h) (Nat.zero_le d) (by simp [Opcode.operandKind]) nofun

theorem Segment.Balanced.load (name : String) :
    (Segment.access .loadField name).Balanced d (d + 1) := fun _ site hwithin =>
  linked_line hwithin rfl (Nat.zero_le d) (by simp [Opcode.operandKind])
    fun _ => toNat_slot_lt (slotFor_lt_length_declareName site.names name)

theorem Segment.Balanced.store (name : String) :
    (Segment.access .storeField name).Balanced (d + 1) d := fun _ site hwithin =>
  linked_line hwithin rfl (Nat.le_add_left 1 d) (by simp [Opcode.operandKind])
    fun _ => toNat_slot_lt (slotFor_lt_length_declareName site.names name)

theorem Segment.Balanced.arith (op : ArithOp) : (Segment.emit op.opcode).Balanced (d + 2) (d + 1) := by
  cases op <;> exact .emit (Nat.le_add_left 2 d) rfl

theorem Segment.Balanced.intrinsic {name : String} {f : Intrinsic} (h : intrinsic? name = some f) :
    (Segment.emit f.opcode).Balanced (d + f.arity) (d + 1) := by
  have hf := Intrinsic.effect h
  have hdepth : f.opcode.depthAfter (d + f.arity) = d + 1 := by
    rw [Opcode.depthAfter, hf.1, hf.2.1, Nat.add_sub_cancel]
  rw [← hdepth]
  exact .emit (hf.1 ▸ Nat.le_add_left _ d) hf.2.2

/-- The jump of a line to a target that a word keeps. -/
theorem Linked.jump {fields base target : Nat} {needs : List (Nat × Nat)}
    (hmax : target < UInt32.size) (h : (target, d) ∈ needs) :
    Linked fields base [⟨.jump, target.toUInt32⟩] [(base, d)] needs :=
  .line (Nat.zero_le d) nofun (fun _ => by rw [UInt32.toNat_ofNat_of_lt' hmax]; exact h) nofun

theorem JumpSegment.Balanced.test (op : CmpOp) (junction : Junction) :
    (JumpSegment.test op junction).Balanced (d + 2) d := by
  intro fields exits site hwithin hTrue hFalse
  have hop : (op.testOpcode junction).pops = 2 ∧ (op.testOpcode junction).pushes = 0 ∧
      (op.testOpcode junction).operandKind = .target ∧ (op.testOpcode junction).length = 5 := by
    cases op <;> cases junction <;> exact ⟨rfl, rfl, rfl, rfl⟩
  obtain ⟨hpops, hpushes, hkind, hlength⟩ := hop
  have hdepth : (op.testOpcode junction).depthAfter (d + 2) = d := by
    rw [Opcode.depthAfter, hpops, hpushes, Nat.add_sub_cancel, Nat.add_zero]
  refine .line (hpops ▸ Nat.le_add_left 2 d) (fun _ => ?_) (fun _ => ?_) fun h => ?_
  · rw [hdepth, hlength]
    exact List.mem_cons_self ..
  · rw [hdepth]
    cases junction <;> simp [Exits.away, hTrue, hFalse]
  · rw [hkind] at h
    cases h

theorem JumpSegment.Balanced.behind (ha : a.Balanced d d₁) (hc : c.Balanced d₁ d₂) :
    (JumpSegment.behind a c).Balanced d d₂ := by
  intro fields exits site hwithin hTrue hFalse
  rw [JumpSegment.behind, Site.after_seq] at hwithin ⊢
  exact ((ha fields site hwithin.of_after).append (hc fields exits _ hwithin hTrue hFalse)
    (a.offset_after site) (by simp)).mono (by simp) (List.Subset.refl _)

theorem JumpSegment.Balanced.branch (junction : Junction) (hl : l.Balanced d d)
    (hr : r.Balanced d d) : (JumpSegment.branch junction l r).Balanced d d := by
  intro fields exits site hwithin hTrue hFalse
  rw [JumpSegment.branch, Site.after_seq, Site.after_seq, Site.after_ofSize] at hwithin ⊢
  have hstop : ((site.after l).after r).Within fields :=
    ⟨Nat.lt_of_le_of_lt (Nat.le_add_right _ 5) hwithin.offset, hwithin.names⟩
  have hthrough : exits.through junction < UInt32.size := by cases junction <;> assumption
  have hleft : (exits.left (site.after l).offset junction).onTrue < UInt32.size ∧
      (exits.left (site.after l).offset junction).onFalse < UInt32.size := by
    have := hstop.of_after.offset
    cases junction <;> exact ⟨by assumption, by assumption⟩
  have hlinkl := hl fields (exits.left (site.after l).offset junction) site hstop.of_after hleft.1
    hleft.2
  have hlinkr := hr fields exits (site.after l) hstop hTrue hFalse
  have hlinkj : Linked fields ((site.after l).after r).offset
      [⟨.jump, (exits.through junction).toUInt32⟩] [(((site.after l).after r).offset, d)]
      [(((site.after l).after r).offset + 5, d), (exits.onTrue, d), (exits.onFalse, d)] :=
    .jump hthrough (by cases junction <;> simp [Exits.through])
  refine ((hlinkl.append hlinkr ?_ ?_).append hlinkj ?_ ?_).mono ?_ (List.Subset.refl _)
  · exact l.offset_after _ site
  · cases junction <;> simp [Exits.left]
  · rw [Line.total_append, ← Nat.add_assoc, ← l.offset_after, ← r.offset_after]
  · simp
  · simp

theorem JumpSegment.Balanced.nonzero (hg : g.Balanced d (d + 1)) (junction : Junction) :
    (JumpSegment.nonzero g junction).Balanced d d :=
  .behind (hg.seq (.push _)) (.test .ne junction)

theorem Linked.push {fields base : Nat} (w : UInt32) :
    Linked fields base [⟨.push, w⟩] [(base, d)] [(base + 5, d + 1)] := by
  refine .line (Nat.zero_le d) (fun _ => List.mem_singleton_self _) ?_ ?_ <;>
    simp [Opcode.operandKind]

theorem Segment.Balanced.truthValue (hc : c.Balanced d d) :
    (Segment.truthValue c).Balanced d (d + 1) := by
  intro fields site hwithin
  rw [Segment.truthValue, Site.after_seq, Site.after_ofSize] at hwithin ⊢
  have hstop : (site.after c).offset + 15 < UInt32.size := hwithin.offset
  have hlinkc := hc fields ⟨(site.after c).offset, (site.after c).offset + 10⟩ site
    ⟨by omega, hwithin.names⟩ (by dsimp only; omega) (by dsimp only; omega)
  have hone : Linked fields (site.after c).offset [⟨.push, Single.one.bits⟩]
      [((site.after c).offset, d)] [((site.after c).offset + 5, d + 1)] := .push _
  have hjump : Linked fields ((site.after c).offset + 5)
      [⟨.jump, ((site.after c).offset + 15).toUInt32⟩] [((site.after c).offset + 5, d + 1)]
      [((site.after c).offset + 15, d + 1)] := .jump hstop (List.mem_singleton_self _)
  have hzero : Linked fields ((site.after c).offset + 10) [⟨.push, Single.zero.bits⟩]
      [((site.after c).offset + 10, d)] [((site.after c).offset + 15, d + 1)] := .push _
  have hvalue := hone.append (hjump.append hzero rfl (by simp)) rfl (by simp)
  refine (hlinkc.append hvalue ?_ ?_).mono ?_ (List.Subset.refl _)
  · exact c.offset_after _ site
  · simp
  · simp

theorem Segment.Balanced.conditional (hc : c.Balanced d d) (hg : g.Balanced d d) :
    (Segment.conditional c g).Balanced d d := by
  intro fields site hwithin
  rw [Site.after_conditional] at hwithin ⊢
  have hstop : ((site.after c).after g).offset + 5 < UInt32.size := hwithin.offset
  have hwithing : ((site.after c).after g).Within fields := ⟨by omega, hwithin.names⟩
  have hlinkc := hc fields ⟨(site.after c).offset, ((site.after c).after g).offset + 5⟩ site
    hwithing.of_after hwithing.of_after.offset hstop
  have hjump : Linked fields ((site.after c).after g).offset
      [⟨.jump, (((site.after c).after g).offset + 5).toUInt32⟩] [(((site.after c).after g).offset, d)]
      [(((site.after c).after g).offset + 5, d)] := .jump hstop (List.mem_singleton_self _)
  -- the body has to pass on what the condition needs when it fails
  have hlinkg := (hg fields (site.after c) hwithing).mono (List.Subset.refl _)
    (List.subset_append_left _ [(((site.after c).after g).offset + 5, d)])
  refine ((hlinkc.append hlinkg ?_ ?_).append hjump ?_ ?_).mono ?_ (List.Subset.refl _)
  · exact c.offset_after _ site
  · simp
  · rw [Line.total_append, ← Nat.add_assoc, ← c.offset_after, ← g.offset_after]
  · simp
  · simp

end Segments

/-! ### Trees -/

/-- A statement leaves the depth as it is, a value adds one, and a condition has
its depth again at its exits; unless there is a fault in them. -/
structure Layout.Balanced (l : Layout) : Prop where
  statement : l.statement.fault = none → ∀ d, l.statement.Balanced d d
  value : l.value.fault = none → ∀ d, l.value.Balanced d (d + 1)
  condition : ∀ junction, (l.condition junction).fault = none →
    ∀ d, (l.condition junction).Balanced d d

namespace Layout.Balanced

theorem ofValue {value : Segment} (h : value.fault = none → ∀ d, value.Balanced d (d + 1)) :
    (Layout.ofValue value).Balanced where
  statement hfault d := (h (Footprint.fault_seq hfault).1 d).seq .discard
  value := h
  condition junction hfault d :=
    .nonzero (h (Footprint.fault_seq (Footprint.fault_seq hfault).1).1 d) junction

theorem ofStatement {statement value : Segment}
    (hs : statement.fault = none → ∀ d, statement.Balanced d d)
    (hv : value.fault = none → ∀ d, value.Balanced d (d + 1)) :
    (Layout.ofStatement statement value).Balanced where
  statement := hs
  value := hv
  condition := (ofValue hv).condition

theorem ofCondition {condition : Junction → JumpSegment}
    (h : ∀ junction, (condition junction).fault = none → ∀ d, (condition junction).Balanced d d) :
    (Layout.ofCondition condition).Balanced :=
  have hvalue : (Segment.truthValue (condition .and)).fault = none →
      ∀ d, (Segment.truthValue (condition .and)).Balanced d (d + 1) :=
    fun hfault d => .truthValue (h .and (Footprint.fault_seq hfault).1 d)
  ⟨(ofValue hvalue).statement, hvalue, h⟩

theorem statements {ls : List Layout} (h : ∀ l ∈ ls, l.Balanced)
    (hfault : (Segment.all (ls.map Layout.statement)).fault = none) (d : Nat) :
    (Segment.all (ls.map Layout.statement)).Balanced d d := by
  induction ls with
  | nil => exact .empty
  | cons l ls ih =>
    have hfault := Footprint.fault_seq hfault
    exact ((h l (List.mem_cons_self ..)).statement hfault.1 d).seq
      (ih (fun m hm => h m (List.mem_cons_of_mem l hm)) hfault.2)

theorem values {ls : List Layout} (h : ∀ l ∈ ls, l.Balanced)
    (hfault : (Segment.all (ls.map Layout.value)).fault = none) (d : Nat) :
    (Segment.all (ls.map Layout.value)).Balanced d (d + ls.length) := by
  induction ls generalizing d with
  | nil => exact .empty
  | cons l ls ih =>
    have hfault := Footprint.fault_seq hfault
    rw [List.length_cons, Nat.add_comm ls.length, ← Nat.add_assoc]
    exact ((h l (List.mem_cons_self ..)).value hfault.1 d).seq
      (ih (fun m hm => h m (List.mem_cons_of_mem l hm)) hfault.2 (d + 1))

theorem call {ls : List Layout} (h : ∀ l ∈ ls, l.Balanced) (name : String)
    (hfault : (Segment.call name (ls.map Layout.value)).fault = none) (d : Nat) :
    (Segment.call name (ls.map Layout.value)).Balanced d (d + 1) := by
  cases hf : intrinsic? name with
  | none =>
    rw [Segment.call, hf]
    exact (Segment.Balanced.push Single.zero).congr rfl fun _ => rfl
  | some f =>
    rw [Segment.call, hf] at hfault ⊢
    dsimp only at hfault
    split at hfault
    · simp at hfault
    · rename_i harity
      have harity : ls.length = f.arity := by
        rw [← List.length_map Layout.value]
        exact Decidable.not_not.1 harity
      have hargs := values h (Footprint.fault_seq hfault).1 d
      rw [harity] at hargs
      exact (hargs.seq (.intrinsic hf)).congr rfl fun _ => rfl

end Layout.Balanced

namespace Expr

mutual

/-- **The layout of every tree is balanced.** -/
theorem balanced : ∀ e : Expr, e.layout.Balanced
  | block statements =>
    have hs := Layout.Balanced.statements (balancedAll statements)
    .ofStatement hs fun hfault d => (hs (Footprint.fault_seq hfault).1 d).seq (.push _)
  | conditional condition body =>
    have hs : ((conditional condition body).layout.statement).fault = none →
        ∀ d, ((conditional condition body).layout.statement).Balanced d d := fun hfault d =>
      have hfault := Footprint.fault_seq (Footprint.fault_seq hfault).1
      .conditional ((balanced condition).condition .and hfault.1 d)
        ((balanced body).statement hfault.2 d)
    .ofStatement hs fun hfault d => (hs (Footprint.fault_seq hfault).1 d).seq (.push _)
  | literal x => .ofValue fun _ _ => .push x
  | ident name => .ofValue fun _ _ => .read name
  | assign name value =>
    have hs : ((assign name value).layout.statement).fault = none →
        ∀ d, ((assign name value).layout.statement).Balanced d d := fun hfault d =>
      ((balanced value).value (Footprint.fault_seq hfault).1 d).seq (.store name)
    .ofStatement hs fun hfault d => (hs (Footprint.fault_seq hfault).1 d).seq (.load name)
  | arith op lhs rhs => .ofValue fun hfault d =>
    have hfault := Footprint.fault_seq (Footprint.fault_seq hfault).1
    (((balanced lhs).value hfault.1 d).seq ((balanced rhs).value hfault.2 (d + 1))).seq (.arith op)
  | call name args => .ofValue (Layout.Balanced.call (balancedAll args) name)
  | cmp op lhs rhs => .ofCondition fun junction hfault d =>
    have hfault := Footprint.fault_seq (Footprint.fault_seq hfault).1
    .behind (((balanced lhs).value hfault.1 d).seq ((balanced rhs).value hfault.2 (d + 1)))
      (.test op junction)
  | or lhs rhs => .ofCondition fun _ hfault d =>
    have hfault := Footprint.fault_seq (Footprint.fault_seq hfault).1
    .branch .or ((balanced lhs).condition .or hfault.1 d) ((balanced rhs).condition .or hfault.2 d)
  | and lhs rhs => .ofCondition fun _ hfault d =>
    have hfault := Footprint.fault_seq (Footprint.fault_seq hfault).1
    .branch .and ((balanced lhs).condition .and hfault.1 d)
      ((balanced rhs).condition .and hfault.2 d)

theorem balancedAll : ∀ es : List Expr, ∀ l ∈ layoutAll es, l.Balanced
  | [], _, hl => absurd hl List.not_mem_nil
  | e :: es, l, hl => by
    rcases List.mem_cons.1 hl with rfl | hl
    · exact balanced e
    · exact balancedAll es l hl

end

end Expr

/-! ### The verifier -/

namespace Chunk

open Verifier

/-- A map of depths by index instead of by offset. -/
def AtIndex (depths : DepthMap) (instrs : List Instr) (k d : Nat) : Prop :=
  ∃ i, instrs[k]? = some i ∧ depths i.offset = some d

section Fits

variable {c : Chunk} {instrs : List Instr} (hdecode : c.instrs? = .ok instrs) {depths : DepthMap}
  (hstarts : ∀ o d, depths o = some d → ∃ i ∈ instrs, i.offset = o)
  (hfits : ∀ i ∈ instrs, ∃ d, depths.Fits c.fields.size i d)

include hdecode hstarts hfits

/-- A map of depths that fits the instructions fits the walk through them. -/
theorem fits_atIndex :
    Walk.Fits instrs.toArray (indexTable c.size instrs) (AtIndex depths instrs) where
  unique := by
    rintro k d d' ⟨i, hi, hd⟩ ⟨i', hi', hd'⟩
    rw [hi, Option.some.injEq] at hi'
    rw [← hi', hd, Option.some.injEq] at hd'
    exact hd'
  follow := by
    rintro k d i ⟨i', hi', hd⟩ hi
    rw [List.getElem?_toArray] at hi
    rw [hi, Option.some.injEq] at hi'
    subst hi'
    obtain ⟨d', hfit⟩ := hfits i (List.mem_of_getElem? hi)
    obtain rfl : d = d' := Option.some.inj (hd.symm.trans hfit.here)
    obtain ⟨next, hnext⟩ := (exists_successors_iff hdecode hi).2 fun hfalls => by
      -- what follows is an instruction, so this one is not the last
      obtain ⟨j, hj, hoffset⟩ := hstarts _ _ (hfit.falls hfalls)
      exact ⟨j, hj, hoffset.symm⟩
    refine ⟨hfit.pops, next, hnext, fun m hm => ?_⟩
    obtain ⟨j, hj, hleads⟩ := (mem_successors_iff hdecode hi hnext).1 hm
    refine ⟨j, hj, ?_⟩
    rcases hleads with htarget | ⟨hfalls, hoffset⟩
    · exact hfit.jumps _ htarget
    · rw [← hoffset]
      exact hfit.falls hfalls

/-- **A chunk passes if there is a map of depths that fits it.** -/
theorem verify_of_fits (hzero : depths 0 = some 0) : c.verify = .ok () := by
  obtain ⟨hrow, hholds⟩ := contiguous_of_instrs? hdecode
  obtain ⟨first, hfirst, hoffset⟩ := hstarts 0 0 hzero
  have hpos : 0 < instrs.toArray.size := List.length_pos_of_mem hfirst
  obtain ⟨hexplored, _, hstart⟩ := Walk.explored_start (indexTable c.size instrs) hpos
  have hlabelled : Walk.Labelled (AtIndex depths instrs) (Walk.start instrs.toArray.size) := by
    intro k d hd
    obtain ⟨rfl, rfl⟩ := (hstart k d).1 hd
    have hget : instrs[0]? = some instrs[0] := List.getElem?_eq_getElem hpos
    exact ⟨_, hget, by rw [hrow.offset_zero hget, hzero]⟩
  obtain ⟨w, hw⟩ := Walk.exists_run (lt_size_of_indexAt? hdecode)
    (fits_atIndex hdecode hstarts hfits) hexplored hlabelled
  refine (verify_eq_ok_iff c).2 ⟨instrs, w, hdecode, List.ne_nil_of_mem hfirst, fun i hi => ?_, hw⟩
  obtain ⟨l, hl, _⟩ := Instr.exists_line_of_decodeAt (hholds i hi)
  obtain ⟨d, hfit⟩ := hfits i hi
  rw [hl] at hfit ⊢
  refine checkOperand_eq_ok_iff.2 ⟨fun hkind => ?_, fun hkind => ?_⟩
  · have htarget := hfit.jumps l.word.toNat (by rw [Line.target?_instr, if_pos hkind])
    obtain ⟨i, hi, hoffset⟩ := hstarts _ _ htarget
    obtain ⟨k, hk⟩ := List.mem_iff_getElem?.1 hi
    rw [(indexAt?_iff hdecode).2 ⟨i, hk, hoffset⟩]
    rfl
  · exact hfit.field l.word hkind (by rw [Line.instr, hkind]; rfl)

end Fits
end Chunk

namespace Expr

/-- A whole program needs no depths from elsewhere. -/
theorem linked_program (e : Expr) (hfault : e.program.fault = none) {fields : Nat} {site : Site}
    (hwithin : (site.after e.layout.statement).Within fields) :
    Linked fields site.offset (e.program.lines site) [(site.offset, 0)] [] := by
  have hbody := e.balanced.statement (Footprint.fault_seq hfault).1 0 fields site hwithin
  have hret : Linked fields (site.after e.layout.statement).offset [⟨.ret, 0⟩]
      [((site.after e.layout.statement).offset, 0)] [] := .line (Nat.zero_le 0) nofun nofun nofun
  exact (hbody.append hret (e.layout.statement.offset_after site) (by simp)).mono (by simp)
    (List.Subset.refl _)

theorem instrs?_laidOut (e : Expr) {c : Chunk} (hcode : c.code = #[]) :
    (e.laidOut c).instrs? = .ok (Line.instrsAt 0 (e.program.lines ⟨0, c.names⟩)) := by
  have hdecode := Line.decodeFrom_encode ((e.toList_code_laidOut hcode).trans (List.nil_append _).symm)
  rw [Chunk.instrs?, Chunk.instrs]
  rw [List.length_nil] at hdecode
  rw [hdecode]

theorem verify_laidOut {e : Expr} {c : Chunk} (hcode : c.code = #[])
    (hfault : e.program.fault = none) (hsize : (e.laidOut c).code.size < UInt32.size) :
    (e.laidOut c).verify = .ok () := by
  have hwithin : (Site.after ⟨0, c.names⟩ e.layout.statement).Within (e.laidOut c).fields.size := by
    refine ⟨?_, ?_⟩
    · rw [← Chunk.size, e.size_laidOut hcode] at hsize
      have hle : e.layout.statement.size ≤ e.program.size := Nat.le_add_right _ _
      show 0 + e.layout.statement.size < UInt32.size
      omega
    · refine Nat.le_of_eq ?_
      rw [← e.names_laidOut c, Chunk.length_names]
  obtain ⟨depths, hstarts, hlink⟩ := e.linked_program hfault hwithin
  obtain ⟨hhas, hfits⟩ := hlink depths (fun _ _ _ => rfl) fun _ hp => absurd hp List.not_mem_nil
  exact Chunk.verify_of_fits (e.instrs?_laidOut hcode) hstarts hfits
    (hhas (0, 0) (List.mem_singleton_self _))

/-- **Compiled code passes the verifier.** -/
theorem verify_compileInto {e : Expr} {c f : Chunk} (hcode : c.code = #[])
    (hresult : (e.compileInto c).result = .ok f) (hsize : f.code.size < UInt32.size) :
    f.verify = .ok () := by
  obtain ⟨hfault, rfl⟩ := eq_laidOut_of_result hresult
  exact verify_laidOut hcode hfault hsize

/-- `x = 1 + (a < 1 && b);`, whose condition stands for a number with another one
beneath it. -/
def conditionAsNumber : Expr :=
  assign "x" (arith .add (literal Single.one)
    (and (cmp .lt (ident "a") (literal Single.one)) (ident "b")))

theorem verify_conditionAsNumber :
    (conditionAsNumber.compileInto Chunk.empty).result =
        .ok (conditionAsNumber.laidOut Chunk.empty) ∧
      (conditionAsNumber.laidOut Chunk.empty).code.size < UInt32.size ∧
      (conditionAsNumber.laidOut Chunk.empty).verify = .ok () := by
  have hresult : (conditionAsNumber.compileInto Chunk.empty).result =
      .ok (conditionAsNumber.laidOut Chunk.empty) := by
    rw [result_compileInto]
    rfl
  exact ⟨hresult, by decide, verify_compileInto rfl hresult (by decide)⟩

end Expr
end FieldScript
