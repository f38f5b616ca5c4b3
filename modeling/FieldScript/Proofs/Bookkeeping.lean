/-
# Every jump is emitted once and patched once

The recording compiler is the compiler with notes and nothing else: `Follows y x`
says that the recording step `y` ends as the step `x` does, in the same state, and
that its notes are a *ledger* of what `x` did to the jumps that wait (`Ledger`).
Unless `x` ends with a fault in patching its notes are orderly.  The rules follow
the way in which the compiler puts steps together, and say nothing of which
condition a jump belongs to: each step is left to keep its own books.

A whole compilation ends with no fault in patching, since the only fault of a
tree is a miscall.  So its journal is orderly from the start, when no jump waits,
and the balance of an orderly journal pairs its patches with its emissions
(`Expr.journal_balanced`).
-/

import FieldScript.Proofs.Journal
import FieldScript.Proofs.Miscalls
import FieldScript.Proofs.Writing

namespace FieldScript

/-- What the events between two states of a compilation say: which jumps wait,
and that jumps are emitted one behind the other, at the end of the code. -/
structure Ledger (s : Emitter) (events : List JumpEvent) (t : Emitter) : Prop where
  pending : t.pending = replayAll s.pending events
  grows : s.chunk.size ≤ t.chunk.size
  fresh : ∀ label ∈ emissions events, s.chunk.size ≤ label ∧ label < t.chunk.size
  ordered : (emissions events).Pairwise (· < ·)

theorem Ledger.trans {s t u : Emitter} {past events : List JumpEvent} (h : Ledger s past t)
    (h' : Ledger t events u) : Ledger s (past ++ events) u := by
  have hgrows := h.grows
  have hgrows' := h'.grows
  refine ⟨?_, by omega, ?_, ?_⟩
  · rw [h'.pending, h.pending, replayAll, replayAll, replayAll, List.foldl_append]
  · intro label hlabel
    rw [emissions, List.filterMap_append, List.mem_append] at hlabel
    rcases hlabel with hlabel | hlabel
    · have := h.fresh label hlabel
      omega
    · have := h'.fresh label hlabel
      omega
  · rw [emissions, List.filterMap_append, List.pairwise_append]
    refine ⟨h.ordered, h'.ordered, fun l hl m hm => ?_⟩
    exact Nat.lt_of_lt_of_le (h.fresh l hl).2 (h'.fresh m hm).1

theorem Ledger.of_noEmission {s t : Emitter} {events : List JumpEvent}
    (hpending : t.pending = replayAll s.pending events) (hgrows : s.chunk.size ≤ t.chunk.size)
    (hnone : emissions events = []) : Ledger s events t := by
  refine ⟨hpending, hgrows, ?_, ?_⟩ <;> rw [hnone]
  · exact fun label hlabel => absurd hlabel List.not_mem_nil
  · exact .nil

/-- The jumps that wait are the same, and no code is taken away. -/
def Emitter.Still (s t : Emitter) : Prop := t.pending = s.pending ∧ s.chunk.size ≤ t.chunk.size

instance : Std.Refl Emitter.Still := ⟨fun _ => ⟨rfl, Nat.le_refl _⟩⟩

instance : Trans Emitter.Still Emitter.Still Emitter.Still :=
  ⟨fun h h' => ⟨h'.1.trans h.1, Nat.le_trans h.2 h'.2⟩⟩

theorem Ledger.of_still {s t : Emitter} (h : s.Still t) : Ledger s [] t :=
  .of_noEmission h.1 h.2 rfl

/-- The error with which a computation ends. -/
def errorOf? {ε σ α : Type} : EStateM.Result ε σ α → Option ε
  | .ok _ _ => none
  | .error e _ => some e

/-- The step keeps the promises between emitting jumps and patching them. -/
def KeepsPromises {σ α : Type} (result : EStateM.Result CompileError σ α) : Prop :=
  ∀ fault, errorOf? result ≠ some (.patch fault)

theorem keepsPromises_ok {σ α : Type} (a : α) (s : σ) :
    KeepsPromises (.ok a s : EStateM.Result CompileError σ α) := fun _ h => by cases h

/-- The recording step `y` does what the step `x` does, and its notes are a
ledger; they are orderly unless `x` breaks a promise. -/
def Follows {α : Type} (y : Record α) (x : Emit α) : Prop :=
  ∀ r, ∃ events, y r = Recorder.keep (r.journal ++ events) (x r.emitter) ∧
    Ledger r.emitter events (stateLeft (x r.emitter)) ∧
    (KeepsPromises (x r.emitter) → Orderly r.emitter.pending events)

namespace Follows

variable {α β : Type}

theorem bind {y : Record α} {g : α → Record β} {x : Emit α} {f : α → Emit β} (hx : Follows y x)
    (hf : ∀ a, Follows (g a) (f a)) : Follows (y >>= g) (x >>= f) := by
  intro r
  obtain ⟨past, hy, hledger, horderly⟩ := hx r
  cases h : x r.emitter with
  | ok a t =>
    rw [h] at hy hledger horderly
    obtain ⟨events, hg, hledger', horderly'⟩ := hf a ⟨t, r.journal ++ past⟩
    refine ⟨past ++ events, ?_, ?_, fun hkeeps => ?_⟩
    · rw [bind_of_ok hy, bind_of_ok h, hg, List.append_assoc]
    · rw [bind_of_ok h]
      exact hledger.trans hledger'
    · rw [bind_of_ok h] at hkeeps
      refine orderly_append.2 ⟨horderly (keepsPromises_ok a t), ?_⟩
      rw [← hledger.pending]
      exact horderly' hkeeps
  | error e t =>
    rw [h] at hy hledger horderly
    refine ⟨past, ?_, ?_, ?_⟩ <;> rw [bind_of_error h]
    · exact bind_of_error hy
    · exact hledger
    · exact horderly

/-- A step that leaves the jumps alone needs no notes. -/
theorem lift {x : Emit α} (h : Within Emitter.Still x) : Follows (Record.lift x) x := fun r =>
  ⟨[], by rw [List.append_nil]; rfl, .of_still (h r.emitter), fun _ => trivial⟩

theorem pure (a : α) : Follows (Pure.pure a) (Pure.pure a) := lift (.pure a)

theorem state : Follows (Record.lift get) (get : Emit Emitter) :=
  lift fun s => Std.Refl.refl s

end Follows

/-! ### Steps that leave the jumps alone -/

namespace Chunk

/-- No code is taken away. -/
def NoShorter (c d : Chunk) : Prop := c.size ≤ d.size

instance : Std.Refl NoShorter := ⟨fun c => Nat.le_refl c.size⟩

instance : Trans NoShorter NoShorter NoShorter := ⟨fun h h' => Nat.le_trans h h'⟩

theorem Edit.write_noShorter (bytes : List UInt8) : Within NoShorter (write bytes) := by
  intro c
  show c.code.size ≤ (c.code ++ bytes).size
  rw [← Array.length_toList, ← Array.length_toList, Array.toList_appendList, List.length_append]
  omega

end Chunk

instance : Emitter.Admits Chunk.NoShorter Emitter.Still where
  write := Chunk.Edit.write_noShorter
  declare := fun c name => by
    rw [c.declare_eq]
    exact Nat.le_refl _
  lift := fun _ h => ⟨rfl, h⟩

/-! ### Steps on jumps -/

namespace Chunk.Edit

theorem size_overwrite (code : Array UInt8) (offset : Nat) (bytes : List UInt8) :
    (overwrite code offset bytes).size = code.size := by
  induction bytes generalizing code offset with
  | nil => rfl
  | cons b bs ih => rw [overwrite, ih, Array.size_setIfInBounds]

/-- A patch finds a jump and keeps the size of the code, or it fails and keeps
everything. -/
theorem patch_cases (label target : Nat) (c : Chunk) :
    (∃ d, patch label target c = .ok () d ∧ d.size = c.size ∧
      (c.opcodeAt? label).any Opcode.isJump = true) ∨
      ∃ m, patch label target c = .error m c := by
  have hget : (get : Edit Chunk) c = .ok c c := rfl
  rw [patch, bind_of_ok hget, Chunk.opcodeAt?]
  cases c.code[label]? with
  | none => exact .inr ⟨_, rfl⟩
  | some byte =>
    dsimp only [Option.bind_some]
    by_cases hjump : (Opcode.ofByte? byte).any Opcode.isJump = true
    · rw [if_pos hjump]
      by_cases hroom : label + 5 ≤ c.code.size
      · rw [if_pos hroom]
        refine .inl ⟨⟨overwrite c.code (label + 1) (Word.bytes target.toUInt32), c.fields⟩, rfl, ?_,
          hjump⟩
        rw [Chunk.size, size_overwrite, Chunk.size]
      · rw [if_neg hroom]
        exact .inr ⟨_, rfl⟩
    · rw [if_neg hjump]
      exact .inr ⟨_, rfl⟩

end Chunk.Edit

namespace Emit

section Edit

variable {α : Type} {x : Chunk.Edit α} {c d : Chunk} {pending : List Nat} {log : Array Event}

theorem edit_of_ok {a : α} (h : x c = .ok a d) :
    edit x ⟨c, pending, log⟩ = .ok a ⟨d, pending, log⟩ := by
  simp only [edit, h]

theorem edit_of_error {m : Chunk.Misuse} (h : x c = .error m d) :
    edit x ⟨c, pending, log⟩ = .error (.patch (.misuse m)) ⟨d, pending, log⟩ := by
  simp only [edit, h]

end Edit

/-- Patching takes the label off the jumps that wait.  It completes only for a
label that waits and at which there is a jump, and its failures are faults in
patching. -/
theorem patch_cases (jump target : Nat) (s : Emitter) :
    (stateLeft (patch jump target s)).pending = s.pending.erase jump ∧
      s.chunk.size ≤ (stateLeft (patch jump target s)).chunk.size ∧
      (KeepsPromises (patch jump target s) →
        jump ∈ s.pending ∧ (s.chunk.opcodeAt? jump).any Opcode.isJump = true) := by
  have hget : (get : Emit Emitter) s = .ok s s := rfl
  by_cases hmem : jump ∈ s.pending
  · have hmodify : (modify fun s => { s with pending := s.pending.erase jump } : Emit PUnit) s =
        .ok () { s with pending := s.pending.erase jump } := rfl
    rw [patch, bind_of_ok hget, if_pos (List.contains_iff_mem.2 hmem), bind_of_ok hmodify]
    rcases Chunk.Edit.patch_cases jump target s.chunk with ⟨d, hd, hsize, hfound⟩ | ⟨m, hm⟩
    · rw [edit_of_ok hd]
      exact ⟨rfl, Nat.le_of_eq hsize.symm, fun _ => ⟨hmem, hfound⟩⟩
    · rw [edit_of_error hm]
      exact ⟨rfl, Nat.le_refl _, fun hkeeps => absurd rfl (hkeeps _)⟩
  · have hnot : ¬s.pending.contains jump = true := mt List.contains_iff_mem.1 hmem
    rw [patch, bind_of_ok hget, if_neg hnot]
    exact ⟨(List.erase_of_not_mem hmem).symm, Nat.le_refl _, fun hkeeps => absurd rfl (hkeeps _)⟩

end Emit

namespace Follows

theorem pendingJump (op : Opcode) : Follows (Record.pendingJump op) (Emit.pendingJump op) := by
  intro r
  have hlift : Record.lift (Emit.pendingJump op) r =
      Recorder.keep r.journal (Emit.pendingJump op r.emitter) := rfl
  by_cases hop : op.isJump = true
  · have happly := Emit.pendingJump_apply hop r.emitter
    rw [happly] at hlift
    have hlength : (Line.bytes ⟨op, 0⟩).length = 5 := by
      rw [Line.bytes_of_isJump hop]
      rfl
    have hsize : (r.emitter.extend (.ofSize 5) (Line.bytes ⟨op, 0⟩)
        [r.emitter.site.offset]).chunk.size = r.emitter.chunk.size + 5 :=
      congrArg Site.offset (r.emitter.site_extend [r.emitter.site.offset] hlength)
    refine ⟨[.emitted r.emitter.site.offset], ?_, ?_, fun _ => ⟨trivial, trivial⟩⟩
    · rw [Record.pendingJump, bind_of_ok hlift, happly]
      rfl
    · rw [happly]
      refine ⟨rfl, ?_, ?_, List.pairwise_singleton _ _⟩
      · rw [stateLeft, hsize]
        omega
      · intro label hlabel
        obtain rfl := List.mem_singleton.1 hlabel
        rw [stateLeft, hsize]
        exact ⟨Nat.le_refl _, Nat.lt_add_of_pos_right (by decide)⟩
  · have hfails : Emit.pendingJump op r.emitter =
        .error (.patch (.misuse (.notAJump op))) r.emitter := by
      rw [Emit.pendingJump, Chunk.Edit.jump, if_neg hop]
      rfl
    rw [hfails] at hlift
    refine ⟨[], ?_, ?_, fun _ => trivial⟩
    · rw [Record.pendingJump, bind_of_error hlift, hfails, List.append_nil]
      rfl
    · rw [hfails]
      exact .of_still ⟨rfl, Nat.le_refl _⟩

theorem patch (jump target : Nat) :
    Follows (Record.patch jump target) (Emit.patch jump target) := by
  intro r
  obtain ⟨hpending, hsize, hsound⟩ := Emit.patch_cases jump target r.emitter
  exact ⟨[.patched jump (r.emitter.chunk.opcodeAt? jump)], rfl, .of_noEmission hpending hsize rfl,
    fun hkeeps => ⟨hsound hkeeps, trivial⟩⟩

theorem test (op : CmpOp) (junction : Junction) :
    Follows (Record.test op junction) (Emit.test op junction) := by
  have h := (pendingJump (op.testOpcode junction)).bind fun jump =>
    pure (Pending.test jump junction)
  cases junction <;> exact h

theorem branch {left right : Junction → Record Pending} {left' right' : Junction → Emit Pending}
    {junction : Junction} (hl : Follows (left junction) (left' junction))
    (hr : Follows (right junction) (right' junction)) :
    Follows (Record.branch junction left right) (Emit.branch junction left' right') :=
  hl.bind fun _ => (lift .label).bind fun _ => hr.bind fun _ =>
    (pendingJump .jump).bind fun _ => pure _

/-- A note about a test that is reached, in front of a step which fails if the
test is reached under the wrong junction. -/
theorem reached {y : Record Unit} {x : Emit Unit} (h : Follows y x) {jump : Nat}
    {stored context : Junction}
    (hcheck : stored ≠ context → ∀ s, ¬KeepsPromises (x s)) :
    Follows (Record.note (.reached jump stored context) >>= fun _ => y) x := by
  intro r
  obtain ⟨events, hy, hledger, horderly⟩ :=
    h ⟨r.emitter, r.journal ++ [.reached jump stored context]⟩
  refine ⟨.reached jump stored context :: events, ?_, ?_, fun hkeeps => ⟨?_, horderly hkeeps⟩⟩
  · have hnote : Record.note (.reached jump stored context) r =
        .ok () ⟨r.emitter, r.journal ++ [.reached jump stored context]⟩ := rfl
    rw [bind_of_ok hnote, hy, List.append_assoc]
    rfl
  · exact ⟨hledger.pending, hledger.grows, hledger.fresh, hledger.ordered⟩
  · by_contra hne
    exact hcheck hne r.emitter hkeeps

theorem resolve (p : Pending) (exits : Exits) (junction : Junction) :
    Follows (Record.resolve p exits junction) (Emit.resolve p exits junction) := by
  induction p generalizing exits junction with
  | test jump emitted =>
    rw [Record.resolve]
    by_cases h : emitted = junction
    · subst h
      have hpatch : Emit.resolve (.test jump emitted) exits emitted =
          Emit.patch jump (exits.away emitted) := by
        cases emitted <;> simp [Emit.resolve, Exits.away]
      rw [hpatch]
      simp only [ne_eq, not_true_eq_false, if_false]
      exact (patch jump _).reached fun hne => absurd rfl hne
    · have hthrow : Emit.resolve (.test jump emitted) exits junction =
          (throw (.patch (.otherJunction jump)) : Emit Unit) >>= fun _ =>
            Emit.patch jump (exits.away junction) := by
        cases junction <;> simp [Emit.resolve, Exits.away, h]
      rw [hthrow]
      simp only [ne_eq, h, not_false_eq_true, if_true]
      refine Follows.reached ((lift (.throw _)).bind fun _ => patch jump _) fun _ s hkeeps => ?_
      exact absurd rfl (hkeeps (.otherJunction jump))
  | branch own left rightStart right exit ihl ihr =>
    have h := (ihl (exits.left rightStart own) own).bind fun _ =>
      (ihr exits own).bind fun _ => patch exit (exits.through own)
    cases own <;> exact h

/-- A note about the jumps that wait, behind a step that restores them. -/
theorem enclosed {y : Record Unit} {x : Emit Unit} (h : Follows y x)
    (hrestores : ∀ s t, x s = .ok () t → t.pending = s.pending) :
    Follows (Record.enclosed y) x := by
  intro r
  obtain ⟨events, hy, hledger, horderly⟩ := h r
  have hget : (get : Record Recorder) r = .ok r r := rfl
  rw [Record.enclosed, bind_of_ok hget]
  cases hx : x r.emitter with
  | ok a t =>
    rw [hx] at hy hledger horderly
    refine ⟨events ++ [.restored r.emitter.pending t.pending], ?_, ?_, fun hkeeps => ?_⟩
    · rw [bind_of_ok hy, ← List.append_assoc]
      rfl
    · exact hledger.trans (.of_noEmission rfl (Nat.le_refl _) rfl)
    · refine orderly_append.2 ⟨horderly hkeeps, ⟨?_, hledger.pending⟩, trivial⟩
      rw [← hledger.pending]
      exact (hrestores _ _ hx).symm
  | error e t =>
    rw [hx] at hy hledger horderly
    exact ⟨events, bind_of_error hy, hledger, horderly⟩

end Follows

/-! ### Trees -/

/-- A completed step that writes a segment leaves the jumps that waited. -/
theorem Emits.pending_eq {α : Type} {x : Emit α} {g : Segment} (h : Emits x g) {s t : Emitter}
    {a : α} (hx : x s = .ok a t) : t.pending = s.pending := by
  cases hfault : g.fault with
  | none =>
    obtain ⟨a', ha'⟩ := h.ok hfault s
    rw [hx] at ha'
    cases ha'
    rfl
  | some e =>
    obtain ⟨t', ht'⟩ := h.error e hfault s
    rw [hx] at ht'
    cases ht'

namespace Follows

variable {y z : Record Unit} {x w : Emit Unit} {c : Junction → Record Pending}
  {c' : Junction → Emit Pending}

theorem truthValue {g : Segment} (h : Follows (c .and) (c' .and))
    (hemits : Emits (Codegen.truthValue c') g) :
    Follows (Record.truthValue c) (Codegen.truthValue c') := by
  refine enclosed ?_ fun s t => hemits.pending_eq
  exact h.bind fun p => (lift (.push _)).bind fun _ => (pendingJump .jump).bind fun _ =>
    (lift (.push _)).bind fun _ => (lift .label).bind fun _ =>
      (patch _ _).bind fun _ => resolve p _ .and

theorem conditional {g : Segment} (h : Follows (c .and) (c' .and)) (hbody : Follows y x)
    (hemits : Emits (Codegen.conditional c' x) g) :
    Follows (Record.conditional c y) (Codegen.conditional c' x) := by
  refine enclosed ?_ fun s t => hemits.pending_eq
  refine state.bind fun before => h.bind fun p => (lift .label).bind fun _ =>
    hbody.bind fun _ => (pendingJump .jump).bind fun _ => (lift .label).bind fun _ =>
      (patch _ _).bind fun _ => (resolve p _ .and).bind fun _ => state.bind fun after => ?_
  split
  · exact (lift (.throw _)).bind fun _ => lift (.report _)
  · exact lift (.report _)

theorem nonzero (h : Follows y x) (junction : Junction) :
    Follows (Record.nonzero y junction) (Codegen.nonzero x junction) :=
  h.bind fun _ => (lift (.push _)).bind fun _ => test .ne junction

theorem discarded (h : Follows y x) : Follows (Record.discarded y) (Codegen.discarded x) :=
  h.bind fun _ => lift (.emit .discard)

theorem zeroAfter (h : Follows y x) : Follows (Record.zeroAfter y) (Codegen.zeroAfter x) :=
  h.bind fun _ => (lift (.push _)).bind fun _ => pure ()

end Follows

/-- The three ways to compile a node with a journal follow those without. -/
structure Recording.Follow (r : Recording) (g : Codegen) : Prop where
  statement : Follows r.statement g.statement
  value : Follows r.value g.value
  condition : ∀ junction, Follows (r.condition junction) (g.condition junction)

namespace Recording.Follow

theorem ofValue {y : Record Unit} {x : Emit Unit} (h : Follows y x) :
    (Recording.ofValue y).Follow (.ofValue x) :=
  ⟨h.discarded, h, h.nonzero⟩

theorem ofStatement {y z : Record Unit} {x w : Emit Unit} (h : Follows y x) (h' : Follows z w) :
    (Recording.ofStatement y z).Follow (.ofStatement x w) :=
  ⟨h, h', h'.nonzero⟩

theorem ofCondition {c : Junction → Record Pending} {c' : Junction → Emit Pending} {g : Segment}
    (h : ∀ junction, Follows (c junction) (c' junction))
    (hemits : Emits (Codegen.truthValue c') g) :
    (Recording.ofCondition c).Follow (.ofCondition c') :=
  have hvalue := (h .and).truthValue hemits
  ⟨hvalue.discarded, hvalue, h⟩

theorem forM {rs : List Recording} {gs : List Codegen} {way : Recording → Record Unit}
    {way' : Codegen → Emit Unit} (hway : ∀ r g, Follow r g → Follows (way r) (way' g))
    (h : List.Forall₂ Follow rs gs) : Follows (rs.forM way) (gs.forM way') := by
  induction h with
  | nil => exact .pure ()
  | cons hr _ ih => exact (hway _ _ hr).bind fun _ => ih

theorem call (name : String) {rs : List Recording} {gs : List Codegen}
    (h : List.Forall₂ Follow rs gs) : Follows (Recording.call name rs) (Codegen.call name gs) := by
  unfold Recording.call Codegen.call
  cases intrinsic? name with
  | none => exact .lift ((Within.report _).seq fun _ => .literal _)
  | some f =>
    dsimp only
    have hcall : Follows (rs.forM Recording.value >>= fun _ => Record.lift (Emit.emit f.opcode))
        (gs.forM Codegen.value >>= fun _ => Emit.emit f.opcode) :=
      (forM (fun _ _ h => h.value) h).bind fun _ => .lift (.emit _)
    rw [h.length_eq]
    split
    · exact (Follows.lift (.throw _)).bind fun _ => hcall
    · exact hcall

end Recording.Follow

namespace Expr

open Recording

mutual

/-- **The recording compiler does what the compiler does.** -/
theorem recording_follow : ∀ e : Expr, e.recording.Follow e.codegen
  | block statements => by
    have h := Follow.forM (fun _ _ h => h.statement) (recordingAll_follow statements)
    rw [recording, codegen]
    exact .ofStatement h h.zeroAfter
  | conditional condition body => by
    have hemits := (codegen_emits (conditional condition body)).statement
    rw [codegen] at hemits
    have h := ((recording_follow condition).condition .and).conditional
      (recording_follow body).statement hemits
    rw [recording, codegen]
    exact .ofStatement h h.zeroAfter
  | literal x => by
    rw [recording, codegen]
    exact .ofValue (.lift (.literal x))
  | ident name => by
    rw [recording, codegen]
    exact .ofValue (.lift (.read name))
  | assign name value => by
    have haccess {access : Nat → Emit Unit} (h : ∀ slot, Within Emitter.Still (access slot)) :
        Follows (Record.lift (Emit.declare name >>= access)) (Emit.declare name >>= access) :=
      .lift ((Within.declare name).seq h)
    have h := (recording_follow value).value.bind fun _ => haccess .store
    rw [recording, codegen]
    exact .ofStatement h (h.bind fun _ => haccess .load)
  | arith op lhs rhs => by
    rw [recording, codegen]
    exact .ofValue ((recording_follow lhs).value.bind fun _ =>
      (recording_follow rhs).value.bind fun _ => .lift (.emit op.opcode))
  | call name args => by
    rw [recording, codegen]
    exact .ofValue (Follow.call name (recordingAll_follow args))
  | cmp op lhs rhs => by
    have hemits := (codegen_emits (cmp op lhs rhs)).value
    rw [codegen] at hemits
    rw [recording, codegen]
    exact .ofCondition (fun junction => (recording_follow lhs).value.bind fun _ =>
      (recording_follow rhs).value.bind fun _ => .test op junction) hemits
  | or lhs rhs => by
    have hemits := (codegen_emits (or lhs rhs)).value
    rw [codegen] at hemits
    rw [recording, codegen]
    exact .ofCondition (fun _ => .branch ((recording_follow lhs).condition .or)
      ((recording_follow rhs).condition .or)) hemits
  | and lhs rhs => by
    have hemits := (codegen_emits (and lhs rhs)).value
    rw [codegen] at hemits
    rw [recording, codegen]
    exact .ofCondition (fun _ => .branch ((recording_follow lhs).condition .and)
      ((recording_follow rhs).condition .and)) hemits

theorem recordingAll_follow :
    ∀ es : List Expr, List.Forall₂ Follow (recordingAll es) (codegenAll es)
  | [] => by
    rw [recordingAll, codegenAll]
    exact .nil
  | e :: es => by
    rw [recordingAll, codegenAll]
    exact .cons (recording_follow e) (recordingAll_follow es)

end

theorem recordProgram_follows (e : Expr) : Follows e.recordProgram e.emitProgram := by
  refine (recording_follow e).statement.bind fun _ => (Follows.lift (.emit .ret)).bind
    fun _ => Follows.state.bind fun s => ?_
  split
  · exact (Follows.lift (.throw _)).bind fun _ => .lift (.report _)
  · exact .lift (.report _)

/-! ### Whole compilations -/

/-- A tree has no fault but a miscall, so promises are kept. -/
theorem result_ne_patch (e : Expr) (c : Chunk) (fault : PatchFault) :
    (e.compileInto c).result ≠ .error (.patch fault) := by
  intro h
  obtain ⟨_, _, _, _, -, -, hfault⟩ := fault_eq_some_iff.1 (result_eq_error_iff.1 h)
  cases hfault

theorem keepsPromises_emitProgram (e : Expr) (c : Chunk) :
    KeepsPromises (e.emitProgram ⟨c, [], #[]⟩) := by
  intro fault h
  have hresult := e.result_ne_patch c fault
  rw [compileInto] at hresult
  cases hemit : e.emitProgram ⟨c, [], #[]⟩ with
  | ok a s =>
    rw [hemit] at h
    cases h
  | error e' s =>
    rw [hemit] at h hresult
    cases h
    exact hresult rfl

theorem exists_of_result {e : Expr} {c f : Chunk} (h : (e.compileInto c).result = .ok f) :
    ∃ s, e.emitProgram ⟨c, [], #[]⟩ = .ok () s := by
  rw [compileInto] at h
  cases hemit : e.emitProgram ⟨c, [], #[]⟩ with
  | ok a s => exact ⟨s, rfl⟩
  | error e' s =>
    rw [hemit] at h
    cases h

/-- No jump waits when a compilation completes. -/
theorem pending_emitProgram {e : Expr} {s t : Emitter} (h : e.emitProgram s = .ok () t) :
    t.pending = [] := by
  rw [emitProgram_eq] at h
  cases hbody : (e.codegen.statement >>= fun _ => Emit.emit .ret) s with
  | ok a u =>
    have hget : (get : Emit Emitter) u = .ok u u := rfl
    rw [bind_of_ok hbody, bind_of_ok hget] at h
    by_cases hpending : u.pending = []
    · rw [if_neg (not_not.2 hpending)] at h
      cases h
      exact hpending
    · rw [if_pos hpending] at h
      cases h
  | error e' u =>
    rw [bind_of_error hbody] at h
    cases h

/-- The journal is that of the compilation, a ledger from no jumps on, and
orderly. -/
theorem journal_spec (e : Expr) (c : Chunk) :
    e.recordProgram ⟨⟨c, [], #[]⟩, []⟩ = Recorder.keep (e.journal c) (e.emitProgram ⟨c, [], #[]⟩) ∧
      Ledger ⟨c, [], #[]⟩ (e.journal c) (stateLeft (e.emitProgram ⟨c, [], #[]⟩)) ∧
      Orderly [] (e.journal c) := by
  obtain ⟨events, hrecord, hledger, horderly⟩ := e.recordProgram_follows ⟨⟨c, [], #[]⟩, []⟩
  have hjournal : e.journal c = events := by
    rw [journal, hrecord]
    cases e.emitProgram ⟨c, [], #[]⟩ <;> rfl
  rw [hjournal]
  exact ⟨hrecord, hledger, horderly (e.keepsPromises_emitProgram c)⟩

theorem balance {e : Expr} {c : Chunk} {past : List JumpEvent} (h : past <+: e.journal c) :
    (patches past ++ replayAll [] past).Perm (emissions past) ∧ (emissions past).Nodup ∧
      (∀ label ∈ emissions past, c.size ≤ label) ∧
      unresolved past = (replayAll [] past).length := by
  obtain ⟨-, hledger, horderly⟩ := e.journal_spec c
  have hperm : (patches past ++ replayAll [] past).Perm (emissions past) :=
    (horderly.of_prefix h).perm.symm
  have hsub : emissions past <+: emissions (e.journal c) := h.filterMap _
  refine ⟨hperm, ?_, fun label hlabel => ?_, ?_⟩
  · exact (hledger.ordered.imp Nat.ne_of_lt).sublist hsub.sublist
  · exact (hledger.fresh label (hsub.subset hlabel)).1
  · have hlength := hperm.length_eq
    rw [List.length_append] at hlength
    rw [unresolved]
    omega

/-- **Every jump is emitted once and patched once.**  The journal is that of the
compilation.  At every moment of it, no label has been patched twice, each label
that has been patched is one of a jump that this compilation had emitted, and the
number of jumps that wait is not negative.  There is a jump at each label that is
patched, each test is reached under the junction for which it was emitted, and
each conditional and each truth value leaves the jumps that waited before it.
A compilation that completes has patched exactly the jumps that it emitted, and
none ends with a fault in patching. -/
theorem journal_balanced (e : Expr) (c : Chunk) :
    e.recordProgram ⟨⟨c, [], #[]⟩, []⟩ = Recorder.keep (e.journal c) (e.emitProgram ⟨c, [], #[]⟩) ∧
      (∀ past, past <+: e.journal c → (patches past).Nodup ∧
        (∀ label ∈ patches past, c.size ≤ label ∧ label ∈ emissions past) ∧ 0 ≤ unresolved past) ∧
      (∀ label found, .patched label found ∈ e.journal c → found.any Opcode.isJump = true) ∧
      (∀ label stored context, .reached label stored context ∈ e.journal c → stored = context) ∧
      (∀ past before after, past ++ [.restored before after] <+: e.journal c →
        before = after ∧ after.length = unresolved past) ∧
      (∀ f, (e.compileInto c).result = .ok f → unresolved (e.journal c) = 0 ∧
        (emissions (e.journal c)).Nodup ∧ (patches (e.journal c)).Perm (emissions (e.journal c))) ∧
      ∀ fault, (e.compileInto c).result ≠ .error (.patch fault) := by
  obtain ⟨hrecord, hledger, horderly⟩ := e.journal_spec c
  have hsound {event : JumpEvent} (h : event ∈ e.journal c) : ∃ waiting, event.Sound waiting := by
    obtain ⟨past, future, hsplit⟩ := List.append_of_mem h
    have hprefix : past ++ [event] <+: e.journal c := ⟨future, by simp [hsplit]⟩
    exact ⟨_, horderly.sound hprefix⟩
  refine ⟨hrecord, fun past hpast => ?_, fun label found h => ?_, fun label stored context h => ?_,
    fun past before after h => ?_, fun f hresult => ?_, e.result_ne_patch c⟩
  · obtain ⟨hperm, hnodup, hfresh, hunresolved⟩ := balance hpast
    have hpatched := hperm.nodup_iff.2 hnodup
    refine ⟨hpatched.sublist (List.sublist_append_left _ _), fun label hlabel => ?_, ?_⟩
    · have hmem := hperm.subset (List.mem_append_left _ hlabel)
      exact ⟨hfresh label hmem, hmem⟩
    · omega
  · obtain ⟨waiting, hevent⟩ := hsound h
    exact hevent.2
  · obtain ⟨waiting, hevent⟩ := hsound h
    exact hevent
  · obtain ⟨hbefore, hafter⟩ := horderly.sound h
    have hpast : past <+: e.journal c := (List.prefix_append past _).trans h
    obtain ⟨-, -, -, hunresolved⟩ := balance hpast
    rw [hunresolved, hafter]
    exact ⟨hbefore, rfl⟩
  · obtain ⟨s, hs⟩ := exists_of_result hresult
    obtain ⟨hperm, hnodup, -, hunresolved⟩ := balance (List.prefix_refl (e.journal c))
    have hnone : replayAll [] (e.journal c) = [] := by
      rw [← hledger.pending, hs]
      exact pending_emitProgram hs
    rw [hnone] at hperm hunresolved
    rw [List.append_nil] at hperm
    exact ⟨hunresolved, hnodup, hperm⟩

/-- `if (a) {}`: the jump behind the body is patched before that of the test. -/
example : (conditional (ident "a") (block [])).journal Chunk.empty =
    [.emitted 10, .emitted 15, .patched 15 (some .jump), .reached 10 .and .and,
      .patched 10 (some .jumpEq), .restored [] []] := by
  decide +kernel

end Expr
end FieldScript
