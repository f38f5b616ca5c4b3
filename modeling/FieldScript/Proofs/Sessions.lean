/-
# The field table over whole sessions

A session is any row of operations on a chunk: declaring and setting fields,
writing and patching code, compiling, running, and going through an artifact and
back.  Whatever happens in it, including edits that break a rule, trees that do
not compile and runs that end with a fault, the names of the chunk only change by
declarations (`Chunk.Grows`).  Each operation is shown to keep to this
(`Operation.grows`), and a session does by induction.

A compilation declares names while it emits, so one that stops half-way leaves
the names declared up to there.  The rules for `Emits` say nothing of what a failed
step leaves, so the steps of the compiler are gone through once more, with
`Within`.  For steps that only write this is done in general (`Emitter.Admits`).

Declarations keep names distinct and only add behind those that are there.  That
is all it takes for a slot to stay with its name.
-/

import FieldScript.Proofs.Artifacts
import FieldScript.Proofs.StoredFields
import FieldScript.Proofs.Writing

namespace FieldScript

/-! ### Operations -/

/-- Something that is done to a chunk. -/
inductive Operation where
  | declare (name : String)
  | setValue (slot : Nat) (value : Single)
  | append (opcode : Opcode) (operand : Option Operand)
  | emit (opcode : Opcode)
  | push (value : Single)
  | load (slot : Nat)
  | store (slot : Nat)
  | jump (opcode : Opcode) (target : Nat)
  | patch (label target : Nat)
  /-- Compiles a tree into the chunk, where it leaves what it wrote even if it
  fails. -/
  | compile (e : Expr)
  /-- Compiles a tree into a copy, which replaces the chunk unless it fails. -/
  | compileCopy (e : Expr)
  /-- Runs the chunk until it returns or faults. -/
  | run (m : Machine)
  /-- Replaces the chunk by what is read back from its bytes. -/
  | reload

namespace Operation

/-- The chunk that an operation leaves. -/
def perform (c : Chunk) : Operation → Chunk
  | declare name => (c.declare name).2
  | setValue slot value => c.setValue slot value
  | append opcode operand => stateLeft (Chunk.Edit.append opcode operand c)
  | emit opcode => stateLeft (Chunk.Edit.emit opcode c)
  | push value => stateLeft (Chunk.Edit.push value c)
  | load slot => stateLeft (Chunk.Edit.load slot c)
  | store slot => stateLeft (Chunk.Edit.store slot c)
  | jump opcode target => stateLeft (Chunk.Edit.jump opcode target c)
  | patch label target => stateLeft (Chunk.Edit.patch label target c)
  | compile e => (stateLeft (e.emitProgram ⟨c, [], #[]⟩)).chunk
  | compileCopy e => (e.compileInto c).result.toOption.getD c
  | run m => (m.run c).chunk
  | reload => (Chunk.ofBytes c.toBytes).toOption.getD c

/-- The chunk that operations leave one after the other. -/
def session (c : Chunk) (ops : List Operation) : Chunk := ops.foldl perform c

end Operation

/-! ### Names that grow -/

namespace Chunk

/-- The second chunk has the names of the first one with others declared. -/
def Grows (c d : Chunk) : Prop := ∃ added : List String, d.names = added.foldl declareName c.names

namespace Grows

variable {c d : Chunk}

theorem of_names (h : d.names = c.names) : c.Grows d := ⟨[], h⟩

theorem declare (c : Chunk) (name : String) : c.Grows (c.declare name).2 :=
  ⟨[name], by rw [c.declare_eq, c.names_declareAll]⟩

theorem isPrefix (h : c.Grows d) : c.names <+: d.names := by
  obtain ⟨added, hadded⟩ := h
  rw [hadded]
  exact prefix_foldl_declareName c.names added

theorem nodup (h : c.Grows d) (hc : c.names.Nodup) : d.names.Nodup := by
  obtain ⟨added, hadded⟩ := h
  rw [hadded]
  exact nodup_foldl_declareName hc added

end Grows

instance : Std.Refl Grows := ⟨fun _ => .of_names rfl⟩

instance : Trans Grows Grows Grows where
  trans := by
    rintro c d e ⟨added, hd⟩ ⟨added', he⟩
    exact ⟨added ++ added', by rw [he, hd, List.foldl_append]⟩

namespace Edit

theorem write_grows (bytes : List UInt8) : Within Grows (write bytes) := fun _ => .of_names rfl

theorem patch_grows (label target : Nat) : Within Grows (patch label target) := by
  refine .get fun c => ?_
  split
  · exact .throw _
  · split
    · split
      · exact fun _ => .of_names rfl
      · exact .throw _
    · exact .throw _

end Edit
end Chunk

/-! ### What a compilation declares -/

/-- The names of the chunk grow. -/
def Emitter.Grows (s t : Emitter) : Prop := s.chunk.Grows t.chunk

instance : Std.Refl Emitter.Grows := ⟨fun _ => .of_names rfl⟩

instance : Trans Emitter.Grows Emitter.Grows Emitter.Grows where
  trans := fun h h' => Trans.trans (r := Chunk.Grows) h h'

instance : Emitter.Admits Chunk.Grows Emitter.Grows where
  write := Chunk.Edit.write_grows
  declare := .declare
  lift := fun _ h => h

namespace Emit

/-- Whether it completes or fails, the step only declares names. -/
abbrev Grows {α : Type} (x : Emit α) : Prop := Within Emitter.Grows x

namespace Grows

theorem pendingJump (opcode : Opcode) : Grows (Emit.pendingJump opcode) := by
  refine (Within.edit (Chunk.Edit.within_jump Chunk.Edit.write_grows opcode 0)).seq fun jump => ?_
  exact Within.seq (fun _ => .of_names rfl) fun _ => .pure jump

theorem patch (jump target : Nat) : Grows (Emit.patch jump target) := by
  refine .get fun s => ?_
  split
  · exact Within.seq (fun _ => .of_names rfl) fun _ => .edit (Chunk.Edit.patch_grows jump target)
  · exact .throw _

theorem test (op : CmpOp) (junction : Junction) : Grows (Emit.test op junction) :=
  (pendingJump _).seq fun _ => .pure _

theorem branch {left right : Junction → Emit Pending} (junction : Junction)
    (hleft : Grows (left junction)) (hright : Grows (right junction)) :
    Grows (Emit.branch junction left right) :=
  hleft.seq fun _ => Within.label.seq fun _ => hright.seq fun _ =>
    (pendingJump .jump).seq fun _ => .pure _

theorem resolve (p : Pending) (exits : Exits) (junction : Junction) :
    Grows (Emit.resolve p exits junction) := by
  induction p generalizing exits junction with
  | test jump emitted =>
    rw [Emit.resolve.eq_def]
    cases junction with
    | and =>
      dsimp only
      split
      · exact (Within.throw _).seq fun _ => patch jump exits.onFalse
      · exact patch jump exits.onFalse
    | or =>
      dsimp only
      split
      · exact (Within.throw _).seq fun _ => patch jump exits.onTrue
      · exact patch jump exits.onTrue
  | branch junction' left rightStart right exit hleft hright =>
    cases junction'
    · exact (hleft _ _).seq fun _ => (hright _ _).seq fun _ => patch exit exits.onTrue
    · exact (hleft _ _).seq fun _ => (hright _ _).seq fun _ => patch exit exits.onFalse

variable {value statement : Emit Unit} {condition : Junction → Emit Pending}

theorem nonzero (h : Grows value) (junction : Junction) :
    Grows (Codegen.nonzero value junction) :=
  h.seq fun _ => (Within.push _).seq fun _ => test .ne junction

theorem discarded (h : Grows value) : Grows (Codegen.discarded value) :=
  h.seq fun _ => .emit .discard

theorem zeroAfter (h : Grows statement) : Grows (Codegen.zeroAfter statement) :=
  h.seq fun _ => .literal _

theorem truthValue (h : Grows (condition .and)) : Grows (Codegen.truthValue condition) :=
  h.seq fun pending => (Within.push _).seq fun _ => (pendingJump .jump).seq fun _ =>
    (Within.push _).seq fun _ => Within.label.seq fun _ => (patch _ _).seq fun _ =>
      resolve pending _ .and

theorem conditional {body : Emit Unit} (h : Grows (condition .and)) (hbody : Grows body) :
    Grows (Codegen.conditional condition body) := by
  refine .get fun s => h.seq fun pending => Within.label.seq fun _ => hbody.seq fun _ =>
    (pendingJump .jump).seq fun _ => Within.label.seq fun _ => (patch _ _).seq fun _ =>
      (resolve pending _ .and).seq fun _ => .get fun t => ?_
  split
  · exact (Within.throw _).seq fun _ => .report _
  · exact .report _

theorem write (name : String) (h : Grows value) : Grows (Codegen.write name value) :=
  h.seq fun _ => (Within.declare name).seq fun slot => .store slot

theorem forM {way : Codegen → Emit Unit} {gs : List Codegen} (h : ∀ g ∈ gs, Grows (way g)) :
    Grows (gs.forM way) := by
  induction gs with
  | nil => exact .pure ()
  | cons g gs ih =>
    rw [List.forall_mem_cons] at h
    exact h.1.seq fun _ => ih h.2

theorem call (name : String) {args : List Codegen} (h : ∀ g ∈ args, Grows g.value) :
    Grows (Codegen.call name args) := by
  rw [Codegen.call]
  split
  · exact (Within.report _).seq fun _ => .literal _
  · have hcall (f : Intrinsic) : Grows (args.forM Codegen.value >>= fun _ => Emit.emit f.opcode) :=
      (forM h).seq fun _ => .emit f.opcode
    split
    · exact (Within.throw _).seq fun _ => hcall _
    · exact hcall _

end Grows
end Emit

/-- All three ways to compile a node only declare names. -/
structure Codegen.Grows (g : Codegen) : Prop where
  statement : g.statement.Grows
  value : g.value.Grows
  condition : ∀ junction, (g.condition junction).Grows

namespace Codegen.Grows

variable {value statement : Emit Unit} {condition : Junction → Emit Pending}

theorem ofValue (h : value.Grows) : (Codegen.ofValue value).Grows :=
  ⟨.discarded h, h, .nonzero h⟩

theorem ofStatement (h : statement.Grows) (h' : value.Grows) :
    (Codegen.ofStatement statement value).Grows :=
  ⟨h, h', .nonzero h'⟩

theorem ofCondition (h : ∀ junction, (condition junction).Grows) :
    (Codegen.ofCondition condition).Grows :=
  ⟨.discarded (.truthValue (h .and)), .truthValue (h .and), h⟩

end Codegen.Grows

namespace Expr

open Emit

mutual

/-- **A compilation only declares names,** wherever in the tree it stops. -/
theorem codegen_grows : ∀ e : Expr, e.codegen.Grows
  | .block statements => by
    have h := Grows.forM fun g hg => (codegenAll_grows statements g hg).statement
    rw [codegen]
    exact .ofStatement h (.zeroAfter h)
  | .conditional condition body => by
    have h := Grows.conditional ((codegen_grows condition).condition .and)
      (codegen_grows body).statement
    rw [codegen]
    exact .ofStatement h (.zeroAfter h)
  | .literal x => by
    rw [codegen]
    exact .ofValue (.literal x)
  | .ident name => by
    rw [codegen]
    exact .ofValue (.read name)
  | .assign name value => by
    have h := Grows.write name (codegen_grows value).value
    rw [codegen]
    exact .ofStatement h (h.seq fun _ => (Within.declare name).seq fun slot => .load slot)
  | .arith op lhs rhs => by
    rw [codegen]
    exact .ofValue ((codegen_grows lhs).value.seq fun _ =>
      (codegen_grows rhs).value.seq fun _ => .emit op.opcode)
  | .call name args => by
    rw [codegen]
    exact .ofValue (.call name fun g hg => (codegenAll_grows args g hg).value)
  | .cmp op lhs rhs => by
    rw [codegen]
    exact .ofCondition fun junction => (codegen_grows lhs).value.seq fun _ =>
      (codegen_grows rhs).value.seq fun _ => Grows.test op junction
  | .or lhs rhs => by
    rw [codegen]
    exact .ofCondition fun _ =>
      .branch .or ((codegen_grows lhs).condition .or) ((codegen_grows rhs).condition .or)
  | .and lhs rhs => by
    rw [codegen]
    exact .ofCondition fun _ =>
      .branch .and ((codegen_grows lhs).condition .and) ((codegen_grows rhs).condition .and)

theorem codegenAll_grows : ∀ es : List Expr, ∀ g ∈ codegenAll es, g.Grows
  | [] => by
    rw [codegenAll]
    exact List.forall_mem_nil _
  | e :: es => by
    rw [codegenAll]
    exact List.forall_mem_cons.2 ⟨codegen_grows e, codegenAll_grows es⟩

end

theorem emitProgram_grows (e : Expr) : e.emitProgram.Grows := by
  refine (codegen_grows e).statement.seq fun _ => (Within.emit .ret).seq fun _ => .get fun s => ?_
  split
  · exact (Within.throw _).seq fun _ => .report _
  · exact .report _

end Expr

/-! ### Sessions -/

namespace Operation

/-- **Whatever is done to a chunk, its names only change by declarations.** -/
theorem grows (op : Operation) (c : Chunk) : c.Grows (op.perform c) := by
  have happend : ∀ opcode operand, Within Chunk.Grows (Chunk.Edit.append opcode operand) :=
    Chunk.Edit.within_append Chunk.Edit.write_grows
  cases op with
  | declare name => exact .declare c name
  | setValue slot value =>
    refine .of_names ?_
    rw [perform, Chunk.names, Chunk.setValue, Array.toList_modify, Field.names_modify_value]
    rfl
  | append opcode operand => exact happend opcode operand c
  | emit opcode => exact happend opcode none c
  | push value => exact happend .push _ c
  | load slot => exact happend .loadField _ c
  | store slot => exact happend .storeField _ c
  | jump opcode target => exact Chunk.Edit.within_jump Chunk.Edit.write_grows opcode target c
  | patch label target => exact Chunk.Edit.patch_grows label target c
  | compile e => exact e.emitProgram_grows ⟨c, [], #[]⟩
  | compileCopy e =>
    have hgrows := e.emitProgram_grows ⟨c, [], #[]⟩
    rw [perform, Expr.compileInto]
    cases h : e.emitProgram ⟨c, [], #[]⟩ with
    | ok _ s =>
      rw [h] at hgrows
      exact hgrows
    | error fault s => exact .of_names rfl
  | run m => exact .of_names (RunState.names_run c.code Machine.stepLimit _ _)
  | reload =>
    rw [perform]
    cases h : Chunk.ofBytes c.toBytes with
    | ok d =>
      rw [Chunk.eq_of_ofBytes_toBytes h]
      exact .of_names rfl
    | error e => exact .of_names rfl

theorem session_grows (c : Chunk) (ops : List Operation) : c.Grows (session c ops) := by
  induction ops generalizing c with
  | nil => exact .of_names rfl
  | cons op ops ih => exact Trans.trans (op.grows c) (ih (op.perform c))

end Operation

/-- A name stands at its slot. -/
theorem getElem?_slotFor {ns : List String} {name : String} (h : name ∈ ns) :
    ns[slotFor ns name]? = some name := by
  induction ns with
  | nil => exact absurd h List.not_mem_nil
  | cons n ns ih =>
    rw [slotFor_cons]
    by_cases hn : n = name
    · rw [if_pos hn, hn]
      rfl
    · rw [if_neg hn, List.getElem?_cons_succ, ih ((List.mem_cons.1 h).resolve_left (Ne.symm hn))]

namespace Chunk

/-- If names are distinct, the slot of a name is the place where it stands. -/
theorem slot?_eq_some_iff {c : Chunk} (h : c.names.Nodup) {name : String} {slot : Nat} :
    c.slot? name = some slot ↔ c.names[slot]? = some name := by
  rw [slot?_eq_ite]
  constructor
  · intro hslot
    split at hslot
    · rename_i hmem
      cases hslot
      exact getElem?_slotFor hmem
    · cases hslot
  · intro hget
    have hmem := List.mem_of_getElem? hget
    have heq : c.names[slotFor c.names name]? = c.names[slot]? := by
      rw [getElem?_slotFor hmem, hget]
    rw [if_pos hmem, (List.getElem?_inj (slotFor_lt hmem) h).1 heq]

/-- A name that has a slot keeps it, and is not declared again. -/
theorem Grows.slot? {c d : Chunk} (h : c.Grows d) {name : String} {slot : Nat}
    (hslot : c.slot? name = some slot) :
    d.slot? name = some slot ∧ (d.declare name).1 = slot := by
  rw [slot?_eq_ite] at hslot
  split at hslot
  · rename_i hmem
    have heq := slotFor_of_isPrefix h.isPrefix hmem
    cases hslot
    rw [slot?_eq_ite, if_pos (h.isPrefix.subset hmem), declare_eq, heq]
    exact ⟨rfl, rfl⟩
  · cases hslot

theorem slot?_declare (c : Chunk) (name : String) :
    (c.declare name).2.slot? name = some (c.declare name).1 := by
  have hnames : (c.declareAll [name]).names = declareName c.names name := c.names_declareAll [name]
  rw [declare_eq, slot?_eq_ite, hnames, if_pos (mem_declareName c.names name), slotFor_declareName]

end Chunk

namespace Operation

/-- **The field table of any session.**  Every name has a value and no name stands
twice; the first one is that of the position.  A name is found at the slot where it
stands.  Whatever is done next only adds names behind those that are there, so a
slot that was found or declared for a name is found and declared for it for ever. -/
theorem session_table (before : List Operation) :
    let c := session Chunk.empty before
    (∀ slot, (c.valueAt? slot).isSome = true ↔ slot < c.names.length) ∧ c.names.Nodup ∧
      c.names[0]? = some "position.x" ∧
      (∀ name slot, c.slot? name = some slot ↔ c.names[slot]? = some name) ∧
      (∀ op : Operation, c.names <+: (op.perform c).names) ∧
      ∀ (after : List Operation) (name : String),
        (∀ slot, c.slot? name = some slot →
          (session c after).slot? name = some slot ∧ ((session c after).declare name).1 = slot) ∧
        let d := session ((Operation.declare name).perform c) after
        d.slot? name = some (c.declare name).1 ∧ (d.declare name).1 = (c.declare name).1 := by
  intro c
  have hgrows : Chunk.empty.Grows c := session_grows Chunk.empty before
  have hnodup : c.names.Nodup := hgrows.nodup (List.pairwise_singleton _ _)
  have hzero : c.names[0]? = some "position.x" := by
    obtain ⟨rest, hrest⟩ := hgrows.isPrefix
    rw [← hrest]
    rfl
  refine ⟨fun slot => ?_, hnodup, hzero, fun name slot => Chunk.slot?_eq_some_iff hnodup,
    fun op => (op.grows c).isPrefix, fun after name => ⟨fun slot hslot => ?_, ?_⟩⟩
  · simp [Chunk.valueAt?, c.length_names]
  · exact (session_grows c after).slot? hslot
  · exact (session_grows _ after).slot? (c.slot?_declare name)

/-- Compiling it declares `a` and then fails at a call without an argument. -/
def halfCompiled : Expr :=
  .block [.assign "a" (.literal Single.one), .assign "c" (.call "sin" [])]

/-- A field keeps its slot through a compilation that fails half-way, an edit that
breaks a rule, a run that faults, and an artifact. -/
theorem session_table_halfCompiled :
    let c := session Chunk.empty [.declare "b"]
    let after := [.compile halfCompiled, .append .add (some (.offset 1)), .run .new, .reload]
    c.slot? "b" = some 1 ∧ (session c after).names = ["position.x", "b", "a"] ∧
      (session c after).slot? "b" = some 1 ∧ ((session c after).declare "b").1 = 1 := by
  intro c after
  have hslot : c.slot? "b" = some 1 := by decide +kernel
  have hnames : (session c after).names = ["position.x", "b", "a"] := by decide +kernel
  exact ⟨hslot, hnames, ((session_table [.declare "b"]).2.2.2.2.2 after "b").1 1 hslot⟩

end Operation
end FieldScript
