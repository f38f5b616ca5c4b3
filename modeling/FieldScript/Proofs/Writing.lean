/-
# Steps that only write

An edit of a chunk that fails keeps the bytes that it had written, and so does a
compilation.  What such steps leave is therefore said by a relation between
states, which holds however far they came.

Most steps of the compiler append an instruction, declare a name or report
something, and leave the jumps that wait alone.  They keep to every relation that
bytes behind the code and declared names keep to (`Emitter.Admits`), so what they
do is shown here once for all of these relations.
-/

import FieldScript.Compiler
import FieldScript.Proofs.Computations

namespace FieldScript

/-! ### Edits -/

namespace Chunk.Edit

variable {R : Chunk → Chunk → Prop} [Std.Refl R] [Trans R R R]

theorem within_append (hwrite : ∀ bytes, Within R (write bytes)) (opcode : Opcode)
    (operand : Option Operand) : Within R (append opcode operand) := by
  refine Within.seq (Within.get fun c => .pure c.size) fun start => (hwrite _).seq fun _ => ?_
  split
  · exact .pure start
  · exact .throw _
  · exact (hwrite _).seq fun _ => .pure start
  · exact (hwrite _).seq fun _ => .pure start
  · exact (hwrite _).seq fun _ => .pure start
  · exact .throw _
  · exact (hwrite _).seq fun _ => .pure start

theorem within_jump (hwrite : ∀ bytes, Within R (write bytes)) (opcode : Opcode) (target : Nat) :
    Within R (jump opcode target) := by
  rw [jump]
  split
  · exact within_append hwrite opcode _
  · exact .throw _

end Chunk.Edit

/-! ### Steps of a compilation -/

/-- The relation `S` between states of a compilation holds if the same jumps wait
and the chunks are in relation `R`, and bytes behind the code and declared names
keep to `R`. -/
class Emitter.Admits (R : outParam (Chunk → Chunk → Prop)) (S : Emitter → Emitter → Prop) :
    Prop where
  write : ∀ bytes, Within R (Chunk.Edit.write bytes)
  declare : ∀ (c : Chunk) (name : String), R c (c.declare name).2
  lift : ∀ {s : Emitter} {c : Chunk} (log : Array Event), R s.chunk c → S s ⟨c, s.pending, log⟩

theorem Emit.stateLeft_edit {α : Type} (x : Chunk.Edit α) (s : Emitter) :
    stateLeft (Emit.edit x s) = ⟨stateLeft (x s.chunk), s.pending, s.log⟩ := by
  rw [Emit.edit]
  cases x s.chunk <;> rfl

namespace Within

variable {R : Chunk → Chunk → Prop} {S : Emitter → Emitter → Prop} [Emitter.Admits R S]

include R

theorem edit {α : Type} {x : Chunk.Edit α} (h : Within R x) : Within S (Emit.edit x) := by
  intro s
  rw [Emit.stateLeft_edit]
  exact Emitter.Admits.lift _ (h s.chunk)

theorem declare (name : String) : Within S (Emit.declare name) :=
  fun s => Emitter.Admits.lift s.log (Emitter.Admits.declare S s.chunk name)

variable [Std.Refl R]

theorem report (e : Event) : Within S (Emit.report e) :=
  fun s => Emitter.Admits.lift _ (Std.Refl.refl s.chunk)

theorem label : Within S Emit.label := edit (.get fun c => .pure c.size)

variable [Trans R R R]

theorem append (opcode : Opcode) (operand : Option Operand) :
    Within S (Emit.edit (Chunk.Edit.append opcode operand)) :=
  edit (Chunk.Edit.within_append (Emitter.Admits.write S) opcode operand)

theorem push (x : Single) : Within S (Emit.push x) := append .push _

variable [Std.Refl S] [Trans S S S]

theorem emit (opcode : Opcode) : Within S (Emit.emit opcode) :=
  (append opcode none).seq fun _ => .pure ()

theorem load (slot : Nat) : Within S (Emit.load slot) :=
  (append .loadField _).seq fun _ => .pure ()

theorem store (slot : Nat) : Within S (Emit.store slot) :=
  (append .storeField _).seq fun _ => .pure ()

theorem literal (x : Single) : Within S (do let _ ← Emit.push x) :=
  (push x).seq fun _ => .pure ()

theorem read (name : String) : Within S (Codegen.read name) := by
  refine Within.seq (Within.get fun s => .pure _) fun slot => ?_
  cases slot with
  | some slot => exact load slot
  | none => exact (report _).seq fun _ => literal _

end Within
end FieldScript
