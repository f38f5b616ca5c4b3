/-
# The loop of the verifier ends

A walk that is cut off looks like one that has ended, and an array answers any
index.  Here the loop is written once more so that both would show: it has no
answer (`none`) if its worklist is not empty after a number of rounds, and it
stops at an index out of range (`Stop.outOfRange`).  It keeps a journal of its
worklist, in which every index that is pushed or popped is noted.

All follows from one invariant (`Ledger`): the indices pushed so far are those
that have a depth, each was pushed once, and together they are those popped so
far and those on the worklist.  A reached instruction without a depth was never
pushed before.  So there are at most as many pushes as instructions, hence as
many pops, and there is one pop in every round.
-/

import FieldScript.Proofs.Computations
import FieldScript.Proofs.Walk
import Mathlib.Data.List.Perm.Subperm

namespace FieldScript
namespace Verifier

/-- What happens to the worklist. -/
inductive WorkEvent where
  | pushed (k : Nat)
  | popped (k : Nat)
deriving DecidableEq

namespace WorkEvent

def pushed? : WorkEvent → Option Nat
  | pushed k => some k
  | popped _ => none

def popped? : WorkEvent → Option Nat
  | pushed _ => none
  | popped k => some k

/-- The indices that were pushed, in order. -/
def pushes (journal : List WorkEvent) : List Nat := journal.filterMap pushed?

/-- The indices that were popped, in order; one for each round of the loop. -/
def pops (journal : List WorkEvent) : List Nat := journal.filterMap popped?

variable (journal : List WorkEvent) (k : Nat)

@[simp] theorem pushes_concat_pushed : pushes (journal ++ [pushed k]) = pushes journal ++ [k] :=
  List.filterMap_append

@[simp] theorem pops_concat_pushed : pops (journal ++ [pushed k]) = pops journal := by
  simp [pops, popped?]

@[simp] theorem pushes_concat_popped : pushes (journal ++ [popped k]) = pushes journal := by
  simp [pushes, pushed?]

@[simp] theorem pops_concat_popped : pops (journal ++ [popped k]) = pops journal ++ [k] :=
  List.filterMap_append

end WorkEvent

/-- Why the loop stops before its worklist is empty. -/
inductive Stop where
  | refused (error : VerifyError)
  | outOfRange (index size : Nat)
deriving DecidableEq

/-- A part of the loop, with the journal. -/
abbrev Watch := EStateM Stop (List WorkEvent)

namespace Watch

def note (event : WorkEvent) : Watch Unit := modify (· ++ [event])

def refuse {α : Type} (e : VerifyError) : Watch α := throw (.refused e)

/-- The element of an array at an index, which must be in range. -/
def read {α : Type} (xs : Array α) (k : Nat) : Watch α :=
  match xs[k]? with
  | some x => pure x
  | none => throw (.outOfRange k xs.size)

/-- The array with another element at an index, which must be in range. -/
def write {α : Type} (xs : Array α) (k : Nat) (x : α) : Watch (Array α) :=
  if k < xs.size then pure (xs.setIfInBounds k x) else throw (.outOfRange k xs.size)

def reach (instrs : Array Instr) (depth : Nat) (w : Walk) (k : Nat) : Watch Walk := do
  match ← read w.depths k with
  | none =>
    let depths ← write w.depths k (some depth)
    note (.pushed k)
    return ⟨depths, k :: w.worklist⟩
  | some seen =>
    if seen = depth then return w
    else
      let i ← read instrs k
      refuse (.depthMismatch i.offset seen depth)

def jumps (table : Array (Option Nat)) (i : Instr) : Watch (List Nat) := do
  match i.target? with
  | none => return []
  | some target => return (← read table target).toList

def successors (instrs : Array Instr) (table : Array (Option Nat)) (k : Nat) (i : Instr) :
    Watch (List Nat) := do
  let jumps ← jumps table i
  if i.opcode.fallsThrough then
    if k + 1 < instrs.size then return jumps ++ [k + 1] else refuse (.fallsOffEnd i.offset)
  else return jumps

def visit (instrs : Array Instr) (table : Array (Option Nat)) (w : Walk) (k : Nat) :
    Watch Walk := do
  let i ← read instrs k
  let depth := (← read w.depths k).getD 0
  if depth < i.opcode.pops then
    refuse (.underflow i.offset i.opcode i.opcode.pops depth)
  else
    let next ← successors instrs table k i
    next.foldlM (reach instrs (i.opcode.depthAfter depth)) w

/-- The first instruction gets its depth and goes on the worklist. -/
def start (count : Nat) : Watch Walk := do
  let depths ← write (Array.replicate count none) 0 (some 0)
  note (.pushed 0)
  return ⟨depths, [0]⟩

/-- Goes on until the worklist is empty; `none` if that takes more rounds. -/
def loop (instrs : Array Instr) (table : Array (Option Nat)) :
    Nat → Walk → List WorkEvent → Option (EStateM.Result Stop (List WorkEvent) Walk)
  | 0, w, journal => if w.worklist = [] then some (.ok w journal) else none
  | rounds + 1, w, journal =>
    match w.worklist with
    | [] => some (.ok w journal)
    | k :: rest =>
      match visit instrs table ⟨w.depths, rest⟩ k (journal ++ [.popped k]) with
      | .ok w' journal' => loop instrs table rounds w' journal'
      | .error stop journal' => some (.error stop journal')

/-- The whole check of the depths, from an empty journal. -/
def checkDepths (instrs : Array Instr) (table : Array (Option Nat)) (rounds : Nat) :
    Option (EStateM.Result Stop (List WorkEvent) Walk) :=
  match start instrs.size [] with
  | .ok w journal => loop instrs table rounds w journal
  | .error stop journal => some (.error stop journal)

/-! ### Every round keeps the books -/

open WorkEvent

variable {instrs : Array Instr} {table : Array (Option Nat)} {w : Walk} {journal : List WorkEvent}
  {popped : List Nat} {k : Nat}

theorem read_apply {α : Type} {xs : Array α} {x : α} (h : xs[k]? = some x)
    (journal : List WorkEvent) : read xs k journal = .ok x journal := by
  rw [read, h]
  rfl

/-- An entry that may be missing is read as what the table has there. -/
theorem read_option {α : Type} {xs : Array (Option α)} (h : k < xs.size)
    (journal : List WorkEvent) : read xs k journal = .ok xs[k]?.join journal :=
  read_apply (by rw [Array.getElem?_eq_getElem h, Option.join_some]) journal

theorem write_apply {α : Type} {xs : Array α} (h : k < xs.size) (x : α)
    (journal : List WorkEvent) : write xs k x journal = .ok (xs.setIfInBounds k x) journal := by
  rw [write, if_pos h]
  rfl

/-- A walk and its journal, with the indices that were popped. -/
structure Ledger (instrs : Array Instr) (popped : List Nat) (w : Walk)
    (journal : List WorkEvent) : Prop where
  size : w.depths.size = instrs.size
  rounds : pops journal = popped
  once : (pushes journal).Nodup
  known : ∀ k, k ∈ pushes journal ↔ ∃ d, w.depth? k = some d
  balance : (pushes journal).Perm (popped ++ w.worklist)

namespace Ledger

/-- Only instructions are pushed. -/
theorem lt_size (h : Ledger instrs popped w journal) (hk : k ∈ pushes journal) :
    k < instrs.size := by
  obtain ⟨d, hd⟩ := (h.known k).1 hk
  refine Nat.lt_of_not_le fun hle => ?_
  rw [Walk.depth?, Array.getElem?_eq_none (h.size ▸ hle)] at hd
  cases hd

/-- **There are at most as many pushes as instructions,** and so at most as many
rounds. -/
theorem length_le (h : Ledger instrs popped w journal) :
    popped.length + w.worklist.length ≤ instrs.size := by
  have hsubset : pushes journal ⊆ List.range instrs.size := fun k hk =>
    List.mem_range.2 (h.lt_size hk)
  calc popped.length + w.worklist.length
      = (pushes journal).length := by rw [h.balance.length_eq, List.length_append]
    _ ≤ (List.range instrs.size).length := (h.once.subperm hsubset).length_le
    _ = instrs.size := List.length_range

/-- An instruction without a depth was never pushed; now it is. -/
theorem push (h : Ledger instrs popped w journal) (hk : k < instrs.size)
    (hnone : w.depth? k = none) (depth : Nat) :
    Ledger instrs popped ⟨w.depths.setIfInBounds k (some depth), k :: w.worklist⟩
      (journal ++ [.pushed k]) where
  size := Array.size_setIfInBounds.trans h.size
  rounds := (pops_concat_pushed journal k).trans h.rounds
  once := by
    have hfresh : k ∉ pushes journal := fun hmem => by
      obtain ⟨d, hd⟩ := (h.known k).1 hmem
      rw [hnone] at hd
      cases hd
    rw [pushes_concat_pushed]
    exact (List.perm_append_singleton k _).nodup_iff.2 (List.nodup_cons.2 ⟨hfresh, h.once⟩)
  known j := by
    rw [pushes_concat_pushed, List.mem_append, List.mem_singleton, h.known j,
      Walk.depth?_setIfInBounds (h.size ▸ hk)]
    by_cases heq : k = j
    · simp [heq]
    · rw [if_neg heq]
      exact or_iff_left (Ne.symm heq)
  balance := by
    rw [pushes_concat_pushed]
    have hlast : (popped ++ w.worklist ++ [k]).Perm (popped ++ k :: w.worklist) := by
      rw [List.append_assoc]
      exact (List.perm_append_singleton k w.worklist).append_left popped
    exact (h.balance.append_right [k]).trans hlast

theorem pop {rest : List Nat} (h : Ledger instrs popped w journal)
    (hlist : w.worklist = k :: rest) :
    Ledger instrs (popped ++ [k]) ⟨w.depths, rest⟩ (journal ++ [.popped k]) where
  size := h.size
  rounds := by rw [pops_concat_popped, h.rounds]
  once := by
    rw [pushes_concat_popped]
    exact h.once
  known j := by
    rw [pushes_concat_popped]
    exact h.known j
  balance := by
    rw [pushes_concat_popped, List.append_assoc, List.singleton_append, ← hlist]
    exact h.balance

end Ledger

/-- A result with a journal; there is no index out of range in it. -/
def withJournal {α : Type} (journal : List WorkEvent) :
    Except VerifyError α → EStateM.Result Stop (List WorkEvent) α
  | .ok a => .ok a journal
  | .error e => .error (.refused e) journal

/-- The loop does what the walk does: it goes on with the same depths and the
same worklist, or stops with the same error, and never out of range.  The books
are kept in both cases. -/
inductive Tracks (instrs : Array Instr) (popped : List Nat) :
    Except VerifyError Walk → EStateM.Result Stop (List WorkEvent) Walk → Prop
  | ok {w : Walk} {journal : List WorkEvent} (h : Ledger instrs popped w journal) :
    Tracks instrs popped (.ok w) (.ok w journal)
  | refused {w : Walk} {journal : List WorkEvent} (e : VerifyError)
    (h : Ledger instrs popped w journal) :
    Tracks instrs popped (.error e) (.error (.refused e) journal)

theorem Tracks.exists_ledger {r : Except VerifyError Walk}
    {s : EStateM.Result Stop (List WorkEvent) Walk} (h : Tracks instrs popped r s) :
    ∃ w journal, s = withJournal journal r ∧ Ledger instrs popped w journal := by
  cases h with
  | ok h => exact ⟨_, _, rfl, h⟩
  | refused e h => exact ⟨_, _, rfl, h⟩

theorem Tracks.bind {r : Except VerifyError Walk} {x : Watch Walk}
    {f : Walk → Except VerifyError Walk} {g : Walk → Watch Walk}
    (h : Tracks instrs popped r (x journal))
    (hf : ∀ w journal, Ledger instrs popped w journal → Tracks instrs popped (f w) (g w journal)) :
    Tracks instrs popped (r >>= f) ((x >>= g) journal) := by
  generalize hs : x journal = s at h
  cases h with
  | ok h =>
    rw [bind_of_ok hs]
    exact hf _ _ h
  | refused e h =>
    rw [bind_of_error hs]
    exact .refused e h

theorem Ledger.reach (h : Ledger instrs popped w journal) (hk : k < instrs.size) (depth : Nat) :
    Tracks instrs popped (w.reach instrs depth k) (reach instrs depth w k journal) := by
  have hin : k < w.depths.size := h.size ▸ hk
  have hread : read w.depths k journal = .ok (w.depth? k) journal := read_option hin journal
  rw [Walk.reach, Watch.reach, bind_of_ok hread]
  cases hdepth : w.depth? k with
  | none =>
    dsimp only
    rw [bind_of_ok (write_apply hin (some depth) journal)]
    exact .ok (h.push hk hdepth depth)
  | some seen =>
    dsimp only
    by_cases heq : seen = depth
    · rw [if_pos heq, if_pos heq]
      exact .ok h
    · have hget : instrs[k]? = some instrs[k] := Array.getElem?_eq_getElem hk
      rw [if_neg heq, if_neg heq, bind_of_ok (read_apply hget journal), hget]
      exact .refused _ h

theorem Ledger.foldlM_reach (h : Ledger instrs popped w journal) (depth : Nat) {next : List Nat}
    (hnext : ∀ j ∈ next, j < instrs.size) :
    Tracks instrs popped (next.foldlM (Walk.reach instrs depth) w)
      (next.foldlM (Watch.reach instrs depth) w journal) := by
  induction next generalizing w journal with
  | nil => exact .ok h
  | cons k next ih =>
    rw [List.foldlM_cons, List.foldlM_cons]
    refine (h.reach (hnext k (List.mem_cons_self ..)) depth).bind fun w journal h => ?_
    exact ih h fun j hj => hnext j (List.mem_cons_of_mem k hj)

/-- What the checks before the loop give: there is an instruction, the table
knows only instructions, and every jump goes to an offset of the table. -/
structure Navigable (instrs : Array Instr) (table : Array (Option Nat)) : Prop where
  nonempty : 0 < instrs.size
  entries : ∀ offset k, indexAt? table offset = some k → k < instrs.size
  targets : ∀ (k : Nat) (i : Instr), instrs[k]? = some i →
    ∀ target, i.target? = some target → target < table.size

theorem jumps_apply {i : Instr} (h : ∀ target, i.target? = some target → target < table.size)
    (journal : List WorkEvent) :
    jumps table i journal = .ok (i.target?.bind (indexAt? table)).toList journal := by
  rw [jumps]
  cases htarget : i.target? with
  | none => rfl
  | some target =>
    dsimp only
    rw [bind_of_ok (read_option (h target htarget) journal)]
    rfl

theorem successors_apply (instrs : Array Instr) (k : Nat) {i : Instr}
    (h : ∀ target, i.target? = some target → target < table.size) (journal : List WorkEvent) :
    successors instrs table k i journal =
      withJournal journal (Verifier.successors instrs table k i) := by
  rw [successors, bind_of_ok (jumps_apply h journal), Verifier.successors]
  by_cases hfalls : i.opcode.fallsThrough = true
  · by_cases hlt : k + 1 < instrs.size
    · simp only [hfalls, hlt, if_true]
      rfl
    · simp only [hfalls, hlt, if_true, if_false]
      rfl
  · simp only [hfalls]
    rfl

section Rounds

variable (hgraph : Navigable instrs table)

include hgraph

/-- **One visit** keeps the books. -/
theorem Ledger.visit (h : Ledger instrs popped w journal) (hk : k < instrs.size) :
    Tracks instrs popped (w.visit instrs table k) (visit instrs table w k journal) := by
  have hget : instrs[k]? = some instrs[k] := Array.getElem?_eq_getElem hk
  have hdepth : read w.depths k journal = .ok (w.depth? k) journal :=
    read_option (h.size ▸ hk) journal
  generalize instrs[k] = i at hget
  rw [Walk.visit, Watch.visit, bind_of_ok (read_apply hget journal), bind_of_ok hdepth, hget]
  dsimp only
  by_cases hpops : (w.depth? k).getD 0 < i.opcode.pops
  · rw [if_pos hpops, if_pos hpops]
    exact .refused _ h
  rw [if_neg hpops, if_neg hpops]
  have hnext := successors_apply instrs k (hgraph.targets k i hget) journal
  cases hplain : Verifier.successors instrs table k i with
  | ok next =>
    rw [hplain] at hnext
    rw [bind_of_ok hnext]
    exact h.foldlM_reach _ (lt_size_of_mem_successors hgraph.entries hplain)
  | error e =>
    rw [hplain] at hnext
    rw [bind_of_error hnext]
    exact .refused e h

omit hgraph in
theorem loop_of_nil (h : w.worklist = []) (rounds : Nat) :
    loop instrs table rounds w journal = some (.ok w journal) := by
  cases rounds with
  | zero => rw [Watch.loop, if_pos h]
  | succ rounds => rw [Watch.loop, h]

/-- **The loop ends.**  At most `bound` more pops are possible, so it ends within
as many rounds, and a walk of as many steps is complete. -/
theorem Ledger.loop {bound : Nat} (h : Ledger instrs popped w journal)
    (hbound : instrs.size ≤ popped.length + bound) :
    ∃ popped' s, (∀ rounds, bound ≤ rounds → loop instrs table rounds w journal = some s) ∧
      Tracks instrs popped' (Walk.run instrs table bound w) s := by
  induction bound generalizing popped w journal with
  | zero =>
    have hnil : w.worklist = [] := List.eq_nil_of_length_eq_zero (by have := h.length_le; omega)
    exact ⟨popped, _, fun rounds _ => loop_of_nil hnil rounds, .ok h⟩
  | succ bound ih =>
    rw [Walk.run]
    cases hlist : w.worklist with
    | nil => exact ⟨popped, _, fun rounds _ => loop_of_nil hlist rounds, .ok h⟩
    | cons k rest =>
      have hk : k < instrs.size := h.lt_size (h.balance.mem_iff.2 (by simp [hlist]))
      have hvisit := (h.pop hlist).visit hgraph hk
      dsimp only
      generalize Walk.visit instrs table ⟨w.depths, rest⟩ k = r at hvisit
      generalize hs : Watch.visit instrs table ⟨w.depths, rest⟩ k (journal ++ [.popped k]) = s
        at hvisit
      cases hvisit with
      | ok h' =>
        obtain ⟨popped', s, hloop, htracks⟩ :=
          ih h' (by rw [List.length_append, List.length_singleton]; omega)
        refine ⟨popped', s, fun rounds hrounds => ?_, htracks⟩
        obtain ⟨rounds, rfl⟩ := Nat.exists_eq_add_one_of_ne_zero (by omega : rounds ≠ 0)
        rw [Watch.loop, hlist]
        dsimp only
        rw [hs]
        exact hloop rounds (by omega)
      | refused e h' =>
        refine ⟨_, _, fun rounds hrounds => ?_, .refused e h'⟩
        obtain ⟨rounds, rfl⟩ := Nat.exists_eq_add_one_of_ne_zero (by omega : rounds ≠ 0)
        rw [Watch.loop, hlist]
        dsimp only
        rw [hs]

theorem exists_checkDepths :
    ∃ popped s, (∀ rounds, instrs.size ≤ rounds → checkDepths instrs table rounds = some s) ∧
      Tracks instrs popped (Walk.run instrs table instrs.size (Walk.start instrs.size)) s := by
  have hblank : Ledger instrs [] ⟨Array.replicate instrs.size none, []⟩ [] := by
    refine ⟨Array.size_replicate, rfl, .nil, fun k => ?_, .nil⟩
    rw [Walk.depth?, Array.getElem?_replicate]
    split <;> simp [pushes]
  have hnone : Walk.depth? ⟨Array.replicate instrs.size none, []⟩ 0 = none := by
    rw [Walk.depth?, Array.getElem?_replicate, if_pos hgraph.nonempty]
    rfl
  have hstart : start instrs.size [] = .ok (Walk.start instrs.size) [.pushed 0] := by
    rw [start, bind_of_ok (write_apply (by rw [Array.size_replicate]; exact hgraph.nonempty) _ _)]
    rfl
  simp only [checkDepths, hstart]
  exact (hblank.push hgraph.nonempty hnone 0).loop hgraph (Nat.le_add_left ..)

end Rounds

end Watch
end Verifier

namespace Chunk

open Verifier

/-- What a chunk has passed when its depths are checked: its code can be read, is
not empty, and jumps only to instructions and addresses only fields. -/
structure Admitted (c : Chunk) (instrs : List Instr) : Prop where
  decode : c.instrs? = .ok instrs
  nonempty : instrs ≠ []
  operands : ∀ i ∈ instrs, checkOperand (indexTable c.size instrs) c.fields.size i = .ok ()

namespace Admitted

variable {c : Chunk} {instrs : List Instr}

theorem navigable (h : c.Admitted instrs) :
    Watch.Navigable instrs.toArray (indexTable c.size instrs) where
  nonempty := List.length_pos_iff.2 h.nonempty
  entries := lt_size_of_indexAt? h.decode
  targets k i hi target htarget := by
    have hmem : i ∈ instrs := List.mem_of_getElem? (List.getElem?_toArray ▸ hi)
    obtain ⟨l, hl, -⟩ :=
      Instr.exists_line_of_decodeAt ((contiguous_of_instrs? h.decode).2 i hmem)
    have hcheck := h.operands i hmem
    rw [hl] at hcheck htarget
    rw [Line.target?_instr] at htarget
    split at htarget
    · rename_i hkind
      cases htarget
      have hsome := (checkOperand_eq_ok_iff.1 hcheck).1 hkind
      refine Nat.lt_of_not_le fun hle => ?_
      rw [indexAt?, Array.getElem?_eq_none hle] at hsome
      cases hsome
    · cases htarget

/-- All that is left to a chunk is the walk. -/
theorem verify_eq (h : c.Admitted instrs) :
    c.verify = (Walk.run instrs.toArray (indexTable c.size instrs) instrs.length
      (Walk.start instrs.length)).map fun _ => () := by
  rw [verify, h.decode]
  cases hinstrs : instrs with
  | nil => exact absurd hinstrs h.nonempty
  | cons i is =>
    dsimp only
    rw [← hinstrs, forM_eq_ok_iff.2 h.operands]
    show (Walk.run _ _ _ _ >>= _) = _
    cases Walk.run instrs.toArray (indexTable c.size instrs) instrs.length
      (Walk.start instrs.length) <;> rfl

end Admitted

/-- **The worklist of the verifier ends.**  Whatever the control flow of a chunk
that gets as far as the check of its depths, the loop is through after as many
rounds as there are instructions, with the answer of the verifier and never at an
index out of range.  No index was pushed twice, only indices of instructions were
pushed, and there was no more than one pop for each. -/
theorem walk_pushes_once {c : Chunk} {instrs : List Instr} (h : c.Admitted instrs) :
    ∃ (answer : Except VerifyError Walk) (journal : List WorkEvent),
      (∀ rounds, instrs.length ≤ rounds →
        Watch.checkDepths instrs.toArray (indexTable c.size instrs) rounds =
          some (Watch.withJournal journal answer)) ∧
      c.verify = answer.map (fun _ => ()) ∧
      (WorkEvent.pushes journal).Nodup ∧
      (∀ k ∈ WorkEvent.pushes journal, k < instrs.length) ∧
      (WorkEvent.pops journal).length ≤ instrs.length := by
  obtain ⟨popped, s, hloop, htracks⟩ := Watch.exists_checkDepths h.navigable
  obtain ⟨w, journal, rfl, hledger⟩ := htracks.exists_ledger
  refine ⟨_, journal, hloop, h.verify_eq, hledger.once, fun k => hledger.lt_size, ?_⟩
  rw [hledger.rounds]
  exact Nat.le_trans (Nat.le_add_right ..) hledger.length_le

/-- Jumps to where it would go anyhow, and then to itself for ever. -/
def selfJump : Chunk :=
  ⟨(Line.encode [⟨.push, 0⟩, ⟨.push, 0⟩, ⟨.jumpEq, 15⟩, ⟨.jump, 15⟩]).toArray, #[]⟩

def selfJumpInstrs : List Instr :=
  [⟨0, .push, some (.number ⟨0⟩)⟩, ⟨5, .push, some (.number ⟨0⟩)⟩,
    ⟨10, .jumpEq, some (.offset 15)⟩, ⟨15, .jump, some (.offset 15)⟩]

theorem walk_selfJump :
    selfJump.Admitted selfJumpInstrs ∧
      ∃ (answer : Except VerifyError Walk) (journal : List WorkEvent),
        (∀ rounds, 4 ≤ rounds →
          Watch.checkDepths selfJumpInstrs.toArray (indexTable selfJump.size selfJumpInstrs)
            rounds = some (Watch.withJournal journal answer)) ∧
        selfJump.verify = answer.map (fun _ => ()) ∧
        (WorkEvent.pushes journal).Nodup ∧ (∀ k ∈ WorkEvent.pushes journal, k < 4) ∧
        (WorkEvent.pops journal).length ≤ 4 := by
  have hdecode : selfJump.instrs = (selfJumpInstrs, none) :=
    @Line.decodeFrom_encode selfJump.code []
      [⟨.push, 0⟩, ⟨.push, 0⟩, ⟨.jumpEq, 15⟩, ⟨.jump, 15⟩] rfl
  have hadmitted : selfJump.Admitted selfJumpInstrs := by
    refine ⟨by rw [instrs?, hdecode], List.cons_ne_nil _ _, ?_⟩
    simp only [selfJumpInstrs, List.mem_cons, List.not_mem_nil, or_false, forall_eq_or_imp,
      forall_eq]
    exact ⟨rfl, rfl, rfl, rfl⟩
  exact ⟨hadmitted, walk_pushes_once hadmitted⟩

end Chunk
end FieldScript
