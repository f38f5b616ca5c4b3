/-
# Jumps go forward

Every jump that the compiler writes goes to a place behind itself.  For a whole
condition that is said under an assumption: its jumps go forward if its exits
lie behind its end.  The exits of a left operand are those of the junction and
the start of the right operand, so the assumption passes down to every test
(`JumpSegment.Forward.branch`), and the places that hand a condition its exits
(`Segment.Forward.truthValue`, `Segment.Forward.conditional`) have them behind
it.

Code that only goes forward halts.  A step of verified code leaves the machine
further on in the code, so there are no more steps than bytes, and a run goes
along a path from the start of the code to a return
(`Chunk.Verified.run_forward`).  On such a path no instruction stands twice
(`Path.descending`).
-/

import FieldScript.Proofs.Balance
import FieldScript.Proofs.Paths
import FieldScript.Proofs.Simulation

namespace FieldScript

/-- The instruction does not jump, or it jumps to a place behind its start. -/
def Instr.Forward (i : Instr) : Prop := ∀ target, i.target? = some target → i.offset < target

/-! ### Where the compiler sends jumps -/

namespace Line

/-- Lines that start at an offset go forward. -/
def Forward (offset : Nat) (ls : List Line) : Prop := ∀ i ∈ instrsAt offset ls, i.Forward

namespace Forward

variable {offset mid : Nat} {ls ms : List Line}

theorem nil (offset : Nat) : Forward offset [] := fun _ hi => absurd hi List.not_mem_nil

theorem append (hls : Forward offset ls) (hms : Forward mid ms) (hmid : mid = offset + total ls) :
    Forward offset (ls ++ ms) := by
  subst hmid
  intro i hi
  rw [instrsAt_append] at hi
  rcases List.mem_append.1 hi with hi | hi
  · exact hls i hi
  · exact hms i hi

/-- One line, which jumps forward if it jumps. -/
theorem one {l : Line} (h : l.opcode.operandKind = .target → offset < l.word.toNat) :
    Forward offset [l] := by
  intro i hi target htarget
  rw [instrsAt_cons, instrsAt_nil, List.mem_singleton] at hi
  subst hi
  rw [target?_instr] at htarget
  split at htarget
  · rename_i hkind
    cases htarget
    exact h hkind
  · cases htarget

theorem jump {op : Opcode} {target : Nat} (hlt : offset < target) (hmax : target < UInt32.size) :
    Forward offset [⟨op, target.toUInt32⟩] :=
  one fun _ => by rwa [toNat_target hmax]

/-- A line that is no jump. -/
theorem still {l : Line} (h : l.opcode.operandKind ≠ .target) : Forward offset [l] :=
  one fun hkind => absurd hkind h

theorem push (word : UInt32) : Forward offset [⟨.push, word⟩] :=
  still (by simp [Opcode.operandKind])

end Forward
end Line

/-- The jumps of a segment go forward, wherever it ends within the range of a
word. -/
def Segment.Forward (g : Segment) : Prop :=
  ∀ site : Site, (site.after g).offset < UInt32.size → Line.Forward site.offset (g.lines site)

/-- The jumps of a condition go forward if its exits lie ahead. -/
def JumpSegment.Forward (c : JumpSegment) : Prop :=
  ∀ (exits : Exits) (site : Site), exits.Ahead (site.after c).offset →
    Line.Forward site.offset (c.lines exits site)

theorem Segment.Forward.seq {a b : Segment} (ha : a.Forward) (hb : b.Forward) :
    (a.seq b).Forward := by
  intro site hmax
  rw [Segment.seq, Site.after_seq] at hmax
  have hle : (site.after a).offset ≤ ((site.after a).after b).offset := Nat.le_add_right _ _
  exact (ha site (by omega)).append (hb _ hmax) (a.offset_after site)

theorem Segment.Forward.of_line {g : Segment}
    (h : ∀ site, ∃ l, g.lines site = [l] ∧ l.opcode.operandKind ≠ .target) : g.Forward := by
  intro site _
  obtain ⟨l, hl, hkind⟩ := h site
  rw [hl]
  exact .still hkind

theorem Segment.Forward.read (name : String) : (Segment.read name).Forward := by
  refine .of_line fun site => ?_
  by_cases h : name ∈ site.names
  · exact ⟨_, if_pos h, by simp [Opcode.operandKind]⟩
  · exact ⟨_, if_neg h, by simp [Opcode.operandKind]⟩

theorem Segment.Forward.truthValue {c : JumpSegment} (hc : c.Forward) :
    (Segment.truthValue c).Forward := by
  intro site hmax
  rw [Segment.truthValue, Site.after_seq, Site.after_ofSize] at hmax
  have hstop : (site.after c).offset + 15 < UInt32.size := hmax
  have hahead : Exits.Ahead ⟨(site.after c).offset, (site.after c).offset + 10⟩
      (site.after c).offset := by
    rintro (_ | _) <;> simp only [Exits.goal, if_true, Bool.false_eq_true, if_false] <;> omega
  have hone : Line.Forward (site.after c).offset [⟨.push, Single.one.bits⟩] := .push _
  have hjump : Line.Forward ((site.after c).offset + 5)
      [⟨.jump, ((site.after c).offset + 15).toUInt32⟩] := .jump (by omega) hstop
  have hzero : Line.Forward ((site.after c).offset + 10) [⟨.push, Single.zero.bits⟩] := .push _
  exact (hc _ site hahead).append (hone.append (hjump.append hzero rfl) rfl) (c.offset_after _ site)

theorem Segment.Forward.conditional {c : JumpSegment} {g : Segment} (hc : c.Forward)
    (hg : g.Forward) : (Segment.conditional c g).Forward := by
  intro site hmax
  rw [Site.after_conditional] at hmax
  have hstop : ((site.after c).after g).offset + 5 < UInt32.size := hmax
  have hmid : (site.after c).offset ≤ ((site.after c).after g).offset := Nat.le_add_right _ _
  have hahead : Exits.Ahead ⟨(site.after c).offset, ((site.after c).after g).offset + 5⟩
      (site.after c).offset := by
    rintro (_ | _) <;> simp only [Exits.goal, if_true, Bool.false_eq_true, if_false] <;> omega
  have hjump : Line.Forward ((site.after c).after g).offset
      [⟨.jump, (((site.after c).after g).offset + 5).toUInt32⟩] := .jump (by omega) hstop
  refine ((hc _ site hahead).append (hg _ (by omega)) (c.offset_after _ site)).append hjump ?_
  rw [Line.total_append, ← Nat.add_assoc, ← c.offset_after, ← g.offset_after]

theorem JumpSegment.Forward.test (op : CmpOp) (junction : Junction) :
    (JumpSegment.test op junction).Forward := by
  intro exits site hahead
  have haway : ∃ holds, exits.away junction = exits.goal holds := by
    cases junction
    · exact ⟨false, rfl⟩
    · exact ⟨true, rfl⟩
  obtain ⟨holds, haway⟩ := haway
  obtain ⟨hle, hmax⟩ := hahead holds
  have hafter : (site.after (JumpSegment.test op junction)).offset = site.offset + 5 := rfl
  exact .jump (by omega) (haway ▸ hmax)

theorem JumpSegment.Forward.behind {a : Segment} {c : JumpSegment} (ha : a.Forward)
    (hc : c.Forward) : (JumpSegment.behind a c).Forward := by
  intro exits site hahead
  rw [JumpSegment.behind, Site.after_seq] at hahead
  have hle : (site.after a).offset ≤ ((site.after a).after c).offset := Nat.le_add_right _ _
  have hmax := hahead true
  exact (ha site (by omega)).append (hc exits _ hahead) (a.offset_after site)

theorem JumpSegment.Forward.branch (junction : Junction) {l r : JumpSegment} (hl : l.Forward)
    (hr : r.Forward) : (JumpSegment.branch junction l r).Forward := by
  intro exits site hahead
  rw [JumpSegment.branch, Site.after_seq, Site.after_seq, Site.after_ofSize] at hahead
  have hle : (site.after l).offset ≤ ((site.after l).after r).offset := Nat.le_add_right _ _
  have haheadLeft : (exits.left (site.after l).offset junction).Ahead (site.after l).offset :=
    hahead.left (by dsimp only; omega)
  have hleft := hl _ site haheadLeft
  have hright := hr exits (site.after l) (hahead.mono (Nat.le_add_right _ 5))
  have hexit := hahead (decide (junction = .and))
  rw [Exits.goal_through] at hexit
  have hjump : Line.Forward ((site.after l).after r).offset
      [⟨.jump, (exits.through junction).toUInt32⟩] := .jump (by dsimp only at hexit; omega) hexit.2
  refine (hleft.append hright (l.offset_after _ site)).append hjump ?_
  rw [Line.total_append, ← Nat.add_assoc, ← l.offset_after, ← r.offset_after]

theorem forward_rules : Layout.Rules Segment.Forward JumpSegment.Forward where
  empty _ _ := .nil _
  push _ _ _ := .push _
  emit h := .of_line fun _ => ⟨_, rfl, by simp [h]⟩
  read := .read
  access _ h := .of_line fun _ => ⟨_, rfl, by simp [h]⟩
  seq := .seq
  unknownCall _ _ _ := .push _
  faulty _ h := h
  truthValue := .truthValue
  conditional := .conditional
  test := .test
  behind := .behind
  branch := .branch

/-! ### Runs that only go forward -/

/-- Where the instruction stands that was executed. -/
def Event.executedAt? : Event → Option Nat
  | executed i _ _ => some i.offset
  | returned offset _ => some offset
  | _ => none

/-- The control flow leads forward from such an instruction. -/
theorem Instr.Forward.lt_of_leads {i j : Instr} (hi : i.Forward) (h : i.Leads j) :
    i.offset < j.offset := by
  rcases h with htarget | ⟨_, hnext⟩
  · exact hi _ htarget
  · have hpos := i.opcode.length_pos
    rw [← hnext, Instr.next]
    omega

namespace Path

variable {instrs p : List Instr}

theorem mem (h : Path instrs p) : ∀ i ∈ p, i ∈ instrs := by
  induction h with
  | start hi _ => exact List.forall_mem_singleton.2 hi
  | step _ hj _ ih => exact List.forall_mem_cons.2 ⟨hj, ih⟩

/-- A path through code that goes forward, read from its end, goes back. -/
theorem descending (h : Path instrs p) (hforward : ∀ i ∈ instrs, i.Forward) :
    (p.map Instr.offset).Pairwise (· > ·) := by
  induction h with
  | start => exact List.pairwise_singleton _ _
  | @step i j p h _ hleads ih =>
    have hlt : i.offset < j.offset :=
      (hforward i (h.mem i List.mem_cons_self)).lt_of_leads hleads
    refine List.pairwise_cons.2 ⟨fun offset hmem => ?_, ih⟩
    rcases List.mem_cons.1 hmem with rfl | hmem
    · exact hlt
    · exact Nat.lt_trans (List.rel_of_pairwise_cons ih hmem) hlt

end Path

namespace Chunk

open Verifier

variable {c : Chunk} {instrs : List Instr} {w : Walk}

/-- **A run that only goes forward returns** within as many steps as there are
bytes in front of it.  The instructions that were executed before it, `past`, are
a path to where the machine is, and those executed after it complete a path to a
return. -/
theorem Verified.run_forward (h : c.Verified instrs w) (hforward : ∀ i ∈ instrs, i.Forward)
    {s : RunState} (hs : AtDepth c instrs w s) (n : Nat) (hn : c.size ≤ s.offset + n)
    (past : List Instr) (hpast : ∀ i ∈ instrs, i.offset = s.offset → Path instrs (i :: past))
    (log : Array Event)
    (hlog : log.toList.filterMap Event.executedAt? = past.reverse.map Instr.offset) :
    ∃ t log' last path, RunState.run c.code n s log = (.returned, t, log') ∧
      Path instrs (last :: path) ∧ last.opcode = .ret ∧
      log'.toList.filterMap Event.executedAt? =
        path.reverse.map Instr.offset ++ [last.offset] := by
  induction n generalizing s past log with
  | zero =>
    obtain ⟨k, i, hk, hoffset, _⟩ := hs.depth
    have hdecode := (contiguous_of_instrs? h.decode).2 i (List.mem_of_getElem? hk)
    have hlt : i.offset < c.size := Instr.lt_size_of_decodeAt hdecode
    omega
  | succ n ih =>
    obtain ⟨i, t, hstep, hi, hoffset, hnext⟩ := h.step hs
    have hpath : Path instrs (i :: past) := hpast i hi hoffset
    rw [RunState.run, hstep]
    dsimp only
    by_cases hret : i.opcode = .ret
    · rw [if_pos hret]
      exact ⟨t, _, i, past, rfl, hpath, hret, by simp [hlog, Event.executedAt?]⟩
    · rw [if_neg hret]
      obtain ⟨hat, j, _, hjoffset, hleads⟩ := hnext hret
      have hlt : i.offset < j.offset := (hforward i hi).lt_of_leads hleads
      refine ih hat (by omega) (i :: past) (fun k hk hkoffset => ?_) _ ?_
      · refine .step hpath hk ?_
        rwa [Instr.Leads, hkoffset, ← hjoffset]
      · simp [hlog, Event.executedAt?]

/-- **Verified code that goes forward halts,** whatever values its fields have. -/
theorem Verified.halts (h : c.Verified instrs w) (hforward : ∀ i ∈ instrs, i.Forward)
    (hsize : c.size ≤ Machine.stepLimit) {d : Chunk} (hcode : d.code = c.code)
    (hfields : d.fields.size = c.fields.size) (m : Machine) :
    let executed := (m.run d).log.filterMap Event.executedAt?
    (m.run d).ending = .returned ∧ executed.Pairwise (· < ·) ∧
      (∀ offset ∈ executed, ∃ i ∈ instrs, i.offset = offset) ∧
      ∃ last path, Path instrs (last :: path) ∧ last.opcode = .ret ∧
        executed = path.reverse.map Instr.offset ++ [last.offset] := by
  obtain ⟨t, log, last, path, hrun, hpath, hret, hlog⟩ := h.run_forward hforward
    (h.atStart hfields m.generator) Machine.stepLimit (by rwa [Nat.zero_add]) []
    (fun i hi hzero => .start hi hzero) #[.runStart d.size d.fields.size] rfl
  rw [← hcode] at hrun
  have hexecuted : (m.run d).log.filterMap Event.executedAt? =
      path.reverse.map Instr.offset ++ [last.offset] := by
    rw [Machine.log_run hrun, List.filterMap_append, hlog]
    exact List.append_nil _
  have hoffsets : path.reverse.map Instr.offset ++ [last.offset] =
      ((last :: path).map Instr.offset).reverse := by
    rw [List.map_cons, List.reverse_cons, List.map_reverse]
  rw [hexecuted, hoffsets]
  refine ⟨(Machine.run_eq hrun).1, List.pairwise_reverse.2 (hpath.descending hforward),
    fun offset hmem => ?_, last, path, hpath, hret, hoffsets.symm⟩
  obtain ⟨i, hi, rfl⟩ := List.mem_map.1 (List.mem_reverse.1 hmem)
  exact ⟨i, hpath.mem i hi, rfl⟩

end Chunk

namespace Expr

theorem forward_laidOut (e : Expr) {c : Chunk} (hcode : c.code = #[])
    (hsize : (e.laidOut c).code.size < UInt32.size) {instrs : List Instr}
    (hdecode : (e.laidOut c).instrs? = .ok instrs) : ∀ i ∈ instrs, i.Forward := by
  rw [e.instrs?_laidOut hcode, Except.ok.injEq] at hdecode
  rw [← hdecode]
  refine e.program_all forward_rules ⟨0, c.names⟩ ?_
  rw [e.program.offset_after, ← Line.length_encode, Nat.zero_add]
  rwa [← Array.length_toList, e.toList_code_laidOut hcode] at hsize

theorem stepLimit_of_size {c : Chunk} (hsize : c.code.size < UInt32.size) :
    c.size ≤ Machine.stepLimit :=
  Nat.le_of_lt (Nat.lt_of_lt_of_le hsize (by decide))

/-- A compiled program returns. -/
theorem ending_laidOut {e : Expr} {c : Chunk} (hcode : c.code = #[])
    (hfault : e.program.fault = none) (hsize : (e.laidOut c).code.size < UInt32.size) (m : Machine) :
    (m.run (e.laidOut c)).ending = .returned := by
  obtain ⟨instrs, w, hw⟩ := (Chunk.verify_eq_ok_iff _).1 (verify_laidOut hcode hfault hsize)
  exact (hw.halts (e.forward_laidOut hcode hsize hw.decode) (stepLimit_of_size hsize) rfl rfl m).1

/-- **All jumps go forward, so compiled programs halt.**  Every jump of compiled
code goes to the start of an instruction behind it.  Whatever the fields hold and
whatever the generator is, a run returns.  The instructions that it executes are a
path from the start of the code to a return, and they stand one behind the other,
so none is executed twice. -/
theorem compileInto_halts {e : Expr} {c f : Chunk} (hcode : c.code = #[])
    (hresult : (e.compileInto c).result = .ok f) (hsize : f.code.size < UInt32.size) :
    ∃ instrs, f.instrs? = .ok instrs ∧
      (∀ i ∈ instrs, i.opcode.isJump = true →
        ∃ j ∈ instrs, i.target? = some j.offset ∧ i.offset < j.offset) ∧
      ∀ fields : Array Field, fields.size = f.fields.size → ∀ m : Machine,
        let r := m.run { f with fields }
        let executed := r.log.filterMap Event.executedAt?
        r.ending = .returned ∧ executed.Pairwise (· < ·) ∧
          (∀ offset ∈ executed, ∃ i ∈ instrs, i.offset = offset) ∧
          ∃ last path, FieldScript.Path instrs (last :: path) ∧ last.opcode = .ret ∧
            executed = path.reverse.map Instr.offset ++ [last.offset] := by
  obtain ⟨hfault, rfl⟩ := eq_laidOut_of_result hresult
  obtain ⟨instrs, w, hw⟩ := (Chunk.verify_eq_ok_iff _).1 (verify_laidOut hcode hfault hsize)
  have hforward := e.forward_laidOut hcode hsize hw.decode
  refine ⟨instrs, hw.decode, fun i hi hjump => ?_, fun fields hfields m => ?_⟩
  · obtain ⟨j, hj, htarget⟩ := ((Chunk.checkOperand_iff hw.decode hi).1 (hw.operands i hi)).1 hjump
    exact ⟨j, hj, htarget, hforward i hi _ htarget⟩
  · exact hw.halts hforward (stepLimit_of_size hsize) (d := { e.laidOut c with fields })
      rfl hfields m

/-- `if (a < 1 || b && a != b) { x = abs(b > 0); }`: a junction under a junction,
in a body a condition that stands for an argument. -/
def nestedConditions : Expr :=
  conditional
    (or (cmp .lt (ident "a") (literal Single.one))
      (and (ident "b") (cmp .ne (ident "a") (ident "b"))))
    (assign "x" (call "abs" [cmp .gt (ident "b") (literal Single.zero)]))

/-- Wherever its conditions lead a run, it gets to the return at offset 96. -/
theorem halts_nestedConditions :
    (nestedConditions.compileInto Chunk.empty).result =
        .ok (nestedConditions.laidOut Chunk.empty) ∧
      ∃ instrs, (nestedConditions.laidOut Chunk.empty).instrs? = .ok instrs ∧
        ∀ x y : Single, ∀ m : Machine,
          let r := m.run { nestedConditions.laidOut Chunk.empty with
            fields := #[⟨"position.x", x⟩, ⟨"x", y⟩] }
          let executed := r.log.filterMap Event.executedAt?
          r.ending = .returned ∧ (∀ offset ∈ executed, ∃ i ∈ instrs, i.offset = offset) ∧
            ∃ path, FieldScript.Path instrs (⟨96, .ret, none⟩ :: path) ∧
              executed = path.reverse.map Instr.offset ++ [96] := by
  have hresult : (nestedConditions.compileInto Chunk.empty).result =
      .ok (nestedConditions.laidOut Chunk.empty) := by
    rw [result_compileInto]
    rfl
  obtain ⟨instrs, hdecode, _, hrun⟩ := compileInto_halts rfl hresult (by decide)
  have hreturn : ∀ i ∈ instrs, i.opcode = .ret → i = ⟨96, .ret, none⟩ := by
    rw [nestedConditions.instrs?_laidOut rfl, Except.ok.injEq] at hdecode
    rw [← hdecode]
    decide +kernel
  refine ⟨hresult, instrs, hdecode, fun x y m => ?_⟩
  intro r executed
  obtain ⟨hending, _, hstarts, last, path, hpath, hret, hexecuted⟩ :=
    hrun #[⟨"position.x", x⟩, ⟨"x", y⟩] rfl m
  obtain rfl := hreturn last (hpath.mem last List.mem_cons_self) hret
  exact ⟨hending, hstarts, path, hpath, hexecuted⟩

end Expr
end FieldScript
