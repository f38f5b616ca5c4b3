/-
# A compilation with a journal of its jumps

What the compiler does with a jump is not all visible in what it leaves: that a
jump was patched twice, or under a junction for which it was not emitted, leaves
no trace in the code.  Here the compiler keeps a journal.  It notes each jump
that it emits and each label that it is about to patch, with the opcode that
stands there, each test that the resolution reaches, and, behind each
conditional and each truth value, the jumps that waited before it and wait now.

A journal tells which jumps wait (`JumpEvent.replay`).  It is *orderly* if every
jump that is patched waits at that moment.  Then the jumps emitted so far are
those patched so far and those that wait, one by one (`Orderly.perm`).
-/

import FieldScript.Proofs.Computations
import FieldScript.Proofs.Layout

namespace FieldScript

/-- What happens to jumps during a compilation. -/
inductive JumpEvent where
  /-- A jump was appended with a placeholder for a target. -/
  | emitted (label : Nat)
  /-- A label is to be patched; `found` is the opcode there. -/
  | patched (label : Nat) (found : Option Opcode)
  /-- The resolution reaches a test. -/
  | reached (label : Nat) (stored context : Junction)
  /-- A conditional or a truth value is complete; the jumps that waited before
  it and that wait behind it. -/
  | restored (before after : List Nat)
deriving DecidableEq

namespace JumpEvent

/-- The jumps that wait after an event. -/
def replay (waiting : List Nat) : JumpEvent → List Nat
  | emitted label => label :: waiting
  | patched label _ => waiting.erase label
  | reached _ _ _ => waiting
  | restored _ _ => waiting

/-- What the compiler relies on when an event takes place. -/
def Sound (waiting : List Nat) : JumpEvent → Prop
  | emitted _ => True
  | patched label found => label ∈ waiting ∧ found.any Opcode.isJump = true
  | reached _ stored context => stored = context
  | restored before after => before = waiting ∧ after = waiting

def emitted? : JumpEvent → Option Nat
  | emitted label => some label
  | _ => none

def patched? : JumpEvent → Option Nat
  | patched label _ => some label
  | _ => none

end JumpEvent

/-- Every event is sound when it takes place. -/
def Orderly : List Nat → List JumpEvent → Prop
  | _, [] => True
  | waiting, event :: events => event.Sound waiting ∧ Orderly (event.replay waiting) events

/-- The labels of the jumps that were emitted, in order. -/
def emissions (events : List JumpEvent) : List Nat := events.filterMap JumpEvent.emitted?

/-- The labels that were patched, in order. -/
def patches (events : List JumpEvent) : List Nat := events.filterMap JumpEvent.patched?

/-- The number of jumps that were emitted and not patched. -/
def unresolved (events : List JumpEvent) : Int :=
  (emissions events).length - (patches events).length

/-- The jumps that wait after events. -/
def replayAll (waiting : List Nat) (events : List JumpEvent) : List Nat :=
  events.foldl JumpEvent.replay waiting

theorem orderly_append {waiting : List Nat} {past events : List JumpEvent} :
    Orderly waiting (past ++ events) ↔
      Orderly waiting past ∧ Orderly (replayAll waiting past) events := by
  induction past generalizing waiting with
  | nil => simp [Orderly, replayAll]
  | cons event past ih => simp [Orderly, ih, replayAll, and_assoc]

theorem Orderly.of_prefix {waiting : List Nat} {past events : List JumpEvent}
    (h : Orderly waiting events) (hpast : past <+: events) : Orderly waiting past := by
  obtain ⟨future, rfl⟩ := hpast
  exact (orderly_append.1 h).1

/-- An event of an orderly journal is sound after those before it. -/
theorem Orderly.sound {waiting : List Nat} {past events : List JumpEvent} {event : JumpEvent}
    (h : Orderly waiting events) (hpast : past ++ [event] <+: events) :
    event.Sound (replayAll waiting past) :=
  (orderly_append.1 (h.of_prefix hpast)).2.1

/-- **The balance of an orderly journal:** what waited or was emitted has been
patched or waits. -/
theorem Orderly.perm {waiting : List Nat} {events : List JumpEvent} (h : Orderly waiting events) :
    (waiting ++ emissions events).Perm (patches events ++ replayAll waiting events) := by
  induction events generalizing waiting with
  | nil => exact (List.append_nil waiting).symm ▸ .refl _
  | cons event events ih =>
    have hrest := ih h.2
    cases event with
    | emitted label => exact List.perm_middle.trans hrest
    | patched label found =>
      have hmem : label ∈ waiting := h.1.1
      exact ((List.perm_cons_erase hmem).append_right _).trans (hrest.cons label)
    | reached label stored context => exact hrest
    | restored before after => exact hrest

/-! ### The recording compiler -/

/-- The state of a compilation and its journal, the oldest event first. -/
structure Recorder where
  emitter : Emitter
  journal : List JumpEvent

/-- A step of a compilation that keeps a journal. -/
abbrev Record := EStateM CompileError Recorder

/-- What a step leaves, with a journal. -/
def Recorder.keep {α : Type} (journal : List JumpEvent) :
    EStateM.Result CompileError Emitter α → EStateM.Result CompileError Recorder α
  | .ok a s => .ok a ⟨s, journal⟩
  | .error e s => .error e ⟨s, journal⟩

/-- The opcode at an offset, if there is one. -/
def Chunk.opcodeAt? (c : Chunk) (offset : Nat) : Option Opcode :=
  c.code[offset]?.bind Opcode.ofByte?

namespace Record

/-- A step about which nothing is noted. -/
def lift {α : Type} (x : Emit α) : Record α := fun r => Recorder.keep r.journal (x r.emitter)

def note (event : JumpEvent) : Record Unit :=
  modify fun r => { r with journal := r.journal ++ [event] }

def pendingJump (opcode : Opcode) : Record Nat := do
  let jump ← lift (Emit.pendingJump opcode)
  note (.emitted jump)
  return jump

def patch (jump target : Nat) : Record Unit := do
  let r ← get
  note (.patched jump (r.emitter.chunk.opcodeAt? jump))
  lift (Emit.patch jump target)

def test (op : CmpOp) (junction : Junction) : Record Pending := do
  return .test (← pendingJump (op.testOpcode junction)) junction

def branch (junction : Junction) (left right : Junction → Record Pending) : Record Pending := do
  let left ← left junction
  let rightStart ← lift Emit.label
  let right ← right junction
  let exit ← pendingJump .jump
  return .branch junction left rightStart right exit

def resolve : Pending → Exits → Junction → Record Unit
  | .test jump emitted, exits, junction => do
    note (.reached jump emitted junction)
    if emitted ≠ junction then lift (throw (.patch (.otherJunction jump)))
    patch jump (exits.away junction)
  | .branch junction left rightStart right exit, exits, _ => do
    resolve left (exits.left rightStart junction) junction
    resolve right exits junction
    patch exit (exits.through junction)

/-- A step after which as many jumps should wait as before. -/
def enclosed (x : Record Unit) : Record Unit := do
  let before ← get
  x
  let after ← get
  note (.restored before.emitter.pending after.emitter.pending)

def truthValue (condition : Junction → Record Pending) : Record Unit := enclosed do
  let pending ← condition .and
  let onTrue ← lift (Emit.push Single.one)
  let skip ← pendingJump .jump
  let onFalse ← lift (Emit.push Single.zero)
  let stop ← lift Emit.label
  patch skip stop
  resolve pending ⟨onTrue, onFalse⟩ .and

def conditional (condition : Junction → Record Pending) (body : Record Unit) : Record Unit :=
  enclosed do
    let before ← lift get
    let pending ← condition .and
    let bodyStart ← lift Emit.label
    body
    let skip ← pendingJump .jump
    let stop ← lift Emit.label
    patch skip stop
    resolve pending ⟨bodyStart, stop⟩ .and
    let after ← lift get
    if after.pending ≠ before.pending then lift (throw (.patch .unbalanced))
    lift (Emit.report (.compiledConditional bodyStart stop))

def nonzero (value : Record Unit) (junction : Junction) : Record Pending := do
  value
  let _ ← lift (Emit.push Single.zero)
  test .ne junction

def discarded (value : Record Unit) : Record Unit := do
  value
  lift (Emit.emit .discard)

def zeroAfter (statement : Record Unit) : Record Unit := do
  statement
  let _ ← lift (Emit.push Single.zero)

end Record

/-- The three ways to compile a node, with a journal. -/
structure Recording where
  statement : Record Unit
  value : Record Unit
  condition : Junction → Record Pending

namespace Recording

def ofValue (value : Record Unit) : Recording :=
  ⟨Record.discarded value, value, Record.nonzero value⟩

def ofStatement (statement value : Record Unit) : Recording :=
  ⟨statement, value, Record.nonzero value⟩

def ofCondition (condition : Junction → Record Pending) : Recording :=
  ⟨Record.discarded (Record.truthValue condition), Record.truthValue condition, condition⟩

def call (name : String) (args : List Recording) : Record Unit :=
  match intrinsic? name with
  | none => Record.lift do
    Emit.report (.unknownCall name)
    let _ ← Emit.push Single.zero
  | some f => do
    if args.length ≠ f.arity then Record.lift (throw (.arity name f.arity args.length))
    args.forM Recording.value
    Record.lift (Emit.emit f.opcode)

end Recording

namespace Expr

mutual

/-- The three ways to compile a tree, with a journal. -/
def recording : Expr → Recording
  | block statements =>
    let body := (recordingAll statements).forM Recording.statement
    .ofStatement body (Record.zeroAfter body)
  | conditional condition body =>
    let statement := Record.conditional (recording condition).condition (recording body).statement
    .ofStatement statement (Record.zeroAfter statement)
  | literal x => .ofValue (Record.lift (do let _ ← Emit.push x))
  | ident name => .ofValue (Record.lift (Codegen.read name))
  | assign name value =>
    let statement : Record Unit := do
      (recording value).value
      Record.lift (do Emit.store (← Emit.declare name))
    .ofStatement statement do
      statement
      Record.lift (do Emit.load (← Emit.declare name))
  | arith op lhs rhs => .ofValue do
    (recording lhs).value
    (recording rhs).value
    Record.lift (Emit.emit op.opcode)
  | call name args => .ofValue (Recording.call name (recordingAll args))
  | cmp op lhs rhs => .ofCondition fun junction => do
    (recording lhs).value
    (recording rhs).value
    Record.test op junction
  | or lhs rhs => .ofCondition fun _ =>
    Record.branch .or (recording lhs).condition (recording rhs).condition
  | and lhs rhs => .ofCondition fun _ =>
    Record.branch .and (recording lhs).condition (recording rhs).condition

/-- The ways to compile a row of trees, with a journal. -/
def recordingAll : List Expr → List Recording
  | [] => []
  | e :: es => recording e :: recordingAll es

end

/-- A whole program, with a journal. -/
def recordProgram (e : Expr) : Record Unit := do
  e.recording.statement
  Record.lift (Emit.emit .ret)
  let s ← Record.lift get
  if s.pending ≠ [] then Record.lift (throw (.patch .unbalanced))
  Record.lift (Emit.report (.compiledChunk s.chunk.size s.chunk.fields.size))

/-- What happens to jumps while a tree is compiled behind the code of a chunk. -/
def journal (e : Expr) (c : Chunk) : List JumpEvent :=
  (stateLeft (e.recordProgram ⟨⟨c, [], #[]⟩, []⟩)).journal

end Expr

end FieldScript
