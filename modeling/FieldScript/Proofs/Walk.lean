/-
# The walk of the verifier

A walk gives depths to instructions and keeps a worklist of those that got one
and were not looked at yet.  One step never takes a depth back, and everything
that got a depth is on the worklist or *settled*: its depth is enough for what
it pops, and whatever can follow it has the depth that it leaves.

An instruction goes on the worklist when it gets its depth, so the number of
instructions without a depth and the length of the worklist together go down by
one with every step.  That is why a walk of as many steps as there are
instructions is complete (`Walk.Explored.run`).

A walk fails only if no assignment of depths fits the code (`Walk.exists_run`).
-/

import FieldScript.Proofs.InstrRow

namespace FieldScript

theorem Except.exists_of_bind {ε α β : Type} {x : Except ε α} {f : α → Except ε β} {b : β}
    (h : (x >>= f) = .ok b) : ∃ a, x = .ok a ∧ f a = .ok b := by
  cases x with
  | error e => cases h
  | ok a => exact ⟨a, rfl, h⟩

/-- The depth behind an instruction, if it was `depth` before. -/
def Opcode.depthAfter (op : Opcode) (depth : Nat) : Nat := depth - op.pops + op.pushes

namespace Verifier

variable {instrs : Array Instr} {table : Array (Option Nat)}

theorem lt_size_of_mem_successors {k : Nat} {i : Instr} {next : List Nat}
    (htable : ∀ offset k, indexAt? table offset = some k → k < instrs.size)
    (h : successors instrs table k i = .ok next) : ∀ j ∈ next, j < instrs.size := by
  have hjumps : ∀ j ∈ (i.target?.bind (indexAt? table)).toList, j < instrs.size := fun j hj => by
    obtain ⟨offset, _, hj⟩ := Option.bind_eq_some_iff.1 (Option.mem_toList.1 hj)
    exact htable offset j hj
  unfold successors at h
  split at h
  · split at h
    · rename_i hlt
      cases h
      intro j hj
      rcases List.mem_append.1 hj with hj | hj
      · exact hjumps j hj
      · rwa [List.mem_singleton.1 hj]
    · cases h
  · cases h
    exact hjumps

namespace Walk

/-- The number of instructions without a depth. -/
def unseen (w : Walk) : Nat := w.depths.toList.count none

/-- What a walk becomes when instructions are reached. -/
structure Extends (w w' : Walk) : Prop where
  size : w'.depths.size = w.depths.size
  depth : ∀ k d, w.depth? k = some d → w'.depth? k = some d
  worklist : ∀ k ∈ w.worklist, k ∈ w'.worklist
  fresh : ∀ k d, w'.depth? k = some d → w.depth? k = some d ∨ k ∈ w'.worklist
  reached : ∀ k ∈ w'.worklist, k ∈ w.worklist ∨ ∃ d, w'.depth? k = some d
  pending : w'.unseen + w'.worklist.length = w.unseen + w.worklist.length

theorem Extends.refl (w : Walk) : Extends w w where
  size := rfl
  depth _ _ h := h
  worklist _ h := h
  fresh _ _ h := .inl h
  reached _ h := .inl h
  pending := rfl

theorem Extends.trans {w w' w'' : Walk} (h : Extends w w') (h' : Extends w' w'') :
    Extends w w'' where
  size := h'.size.trans h.size
  depth k d hd := h'.depth k d (h.depth k d hd)
  worklist k hk := h'.worklist k (h.worklist k hk)
  fresh k d hd := by
    rcases h'.fresh k d hd with hd | hk
    · exact (h.fresh k d hd).imp_right (h'.worklist k)
    · exact .inr hk
  reached k hk := by
    rcases h'.reached k hk with hk | hd
    · exact (h.reached k hk).imp_right fun ⟨d, hd⟩ => ⟨d, h'.depth k d hd⟩
    · exact .inr hd
  pending := h'.pending.trans h.pending

theorem depth?_setIfInBounds {w : Walk} {k : Nat} (h : k < w.depths.size) (depth : Nat)
    (ks : List Nat) (j : Nat) :
    Walk.depth? ⟨w.depths.setIfInBounds k (some depth), ks⟩ j =
      if k = j then some depth else w.depth? j :=
  indexAt?_setIfInBounds h depth j

theorem unseen_setIfInBounds {w : Walk} {k : Nat} (hk : k < w.depths.size)
    (hnone : w.depth? k = none) (depth : Nat) (ks : List Nat) :
    unseen ⟨w.depths.setIfInBounds k (some depth), ks⟩ + 1 = w.unseen := by
  have hget : w.depths.toList[k] = none := by
    rwa [depth?, Array.getElem?_eq_getElem hk, Option.join_some] at hnone
  have hpos : 0 < w.depths.toList.count none :=
    List.count_pos_iff.2 (hget ▸ List.getElem_mem (by simpa using hk))
  rw [unseen, unseen, Array.toList_setIfInBounds, List.count_set (by simpa using hk), hget]
  simp only [BEq.rfl, if_true, Option.some_beq_none, Bool.false_eq_true, if_false]
  omega

/-- **One reach.**  An instruction that is reached for the first time gets its
depth and goes on the worklist; any other one has its depth already. -/
theorem extends_of_reach {w w' : Walk} {depth k : Nat} (hk : k < w.depths.size)
    (h : w.reach instrs depth k = .ok w') : Extends w w' ∧ w'.depth? k = some depth := by
  unfold reach at h
  split at h
  · rename_i hnone
    cases h
    have hset := depth?_setIfInBounds hk depth (k :: w.worklist)
    refine ⟨⟨Array.size_setIfInBounds, ?_, fun _ => List.mem_cons_of_mem k, ?_, ?_, ?_⟩, ?_⟩
    · intro j d hj
      have hne : k ≠ j := fun heq => by simp [heq, hj] at hnone
      rw [hset, if_neg hne, hj]
    · intro j d hj
      rw [hset] at hj
      by_cases heq : k = j
      · exact .inr (heq ▸ List.mem_cons_self ..)
      · rw [if_neg heq] at hj
        exact .inl hj
    · intro j hj
      rcases List.mem_cons.1 hj with rfl | hj
      · exact .inr ⟨depth, by rw [hset, if_pos rfl]⟩
      · exact .inl hj
    · have := unseen_setIfInBounds hk hnone depth (k :: w.worklist)
      rw [List.length_cons]
      omega
    · rw [hset, if_pos rfl]
  · rename_i seen hseen
    split at h
    · rename_i heq
      cases h
      exact ⟨.refl w, heq ▸ hseen⟩
    · cases h

theorem extends_of_foldlM_reach {w w' : Walk} {depth : Nat} {next : List Nat}
    (hnext : ∀ j ∈ next, j < w.depths.size)
    (h : next.foldlM (reach instrs depth) w = .ok w') :
    Extends w w' ∧ ∀ j ∈ next, w'.depth? j = some depth := by
  induction next generalizing w with
  | nil =>
    cases h
    exact ⟨.refl _, fun j hj => absurd hj List.not_mem_nil⟩
  | cons k next ih =>
    rw [List.foldlM_cons] at h
    obtain ⟨v, hv, h⟩ := Except.exists_of_bind h
    obtain ⟨hwv, hk⟩ := extends_of_reach (hnext k (List.mem_cons_self ..)) hv
    obtain ⟨hvw', hrest⟩ := ih (fun j hj => hwv.size ▸ hnext j (List.mem_cons_of_mem k hj)) h
    refine ⟨hwv.trans hvw', fun j hj => ?_⟩
    rcases List.mem_cons.1 hj with rfl | hj
    · exact hvw'.depth j depth hk
    · exact hrest j hj

/-- The depth is enough for what the instruction pops, and whatever can follow
it has the depth that it leaves. -/
def Settled (instrs : Array Instr) (table : Array (Option Nat)) (w : Walk) (k depth : Nat) : Prop :=
  ∀ i, instrs[k]? = some i → i.opcode.pops ≤ depth ∧ ∃ next, successors instrs table k i = .ok next ∧
    ∀ j ∈ next, w.depth? j = some (i.opcode.depthAfter depth)

theorem Settled.mono {w w' : Walk} {k depth : Nat} (h : Settled instrs table w k depth)
    (hmono : ∀ j d, w.depth? j = some d → w'.depth? j = some d) :
    Settled instrs table w' k depth := by
  intro i hi
  obtain ⟨hpops, next, hnext, hdepth⟩ := h i hi
  exact ⟨hpops, next, hnext, fun j hj => hmono j _ (hdepth j hj)⟩

/-- What holds of a walk at all times. -/
structure Explored (instrs : Array Instr) (table : Array (Option Nat)) (w : Walk) : Prop where
  size : w.depths.size = instrs.size
  reached : ∀ k ∈ w.worklist, ∃ d, w.depth? k = some d
  settled : ∀ k d, w.depth? k = some d → k ∈ w.worklist ∨ Settled instrs table w k d

section Steps

variable (htable : ∀ offset k, indexAt? table offset = some k → k < instrs.size)

include htable

/-- **One visit** settles its instruction. -/
theorem extends_of_visit {w w' : Walk} {k depth : Nat} (hsize : w.depths.size = instrs.size)
    (hdepth : w.depth? k = some depth) (h : w.visit instrs table k = .ok w') :
    Extends w w' ∧ Settled instrs table w' k depth := by
  unfold visit at h
  split at h
  · rename_i hnone
    cases h
    exact ⟨.refl w, fun i hi => by rw [hnone] at hi; cases hi⟩
  · rename_i i hi
    rw [hdepth, Option.getD_some] at h
    dsimp only at h
    split at h
    · cases h
    · rename_i hpops
      obtain ⟨next, hnext, h⟩ := Except.exists_of_bind h
      have hlt := lt_size_of_mem_successors htable hnext
      obtain ⟨hextends, hall⟩ := extends_of_foldlM_reach (hsize ▸ hlt) h
      refine ⟨hextends, fun i' hi' => ?_⟩
      rw [hi, Option.some.injEq] at hi'
      subst hi'
      exact ⟨Nat.le_of_not_lt hpops, next, hnext, hall⟩

/-- A step of a walk keeps what holds of it. -/
theorem Explored.visit {w w' : Walk} {k : Nat} {rest : List Nat} (hw : Explored instrs table w)
    (hlist : w.worklist = k :: rest) (h : Walk.visit instrs table ⟨w.depths, rest⟩ k = .ok w') :
    Explored instrs table w' ∧ w'.unseen + w'.worklist.length + 1 = w.unseen + w.worklist.length ∧
      ∀ j d, w.depth? j = some d → w'.depth? j = some d := by
  obtain ⟨depth, hdepth⟩ := hw.reached k (hlist ▸ List.mem_cons_self ..)
  obtain ⟨hextends, hsettled⟩ := extends_of_visit htable (w := ⟨w.depths, rest⟩) hw.size hdepth h
  refine ⟨⟨hextends.size.trans hw.size, ?_, ?_⟩, ?_, hextends.depth⟩
  · intro j hj
    rcases hextends.reached j hj with hj | hd
    · obtain ⟨d, hd⟩ := hw.reached j (hlist ▸ List.mem_cons_of_mem k hj)
      exact ⟨d, hextends.depth j d hd⟩
    · exact hd
  · intro j d hd
    rcases hextends.fresh j d hd with hd' | hj
    · rcases hw.settled j d hd' with hj | hs
      · rw [hlist] at hj
        rcases List.mem_cons.1 hj with rfl | hj
        · rw [show d = depth from Option.some.inj (hd'.symm.trans hdepth)]
          exact .inr hsettled
        · exact .inl (hextends.worklist j hj)
      · exact .inr (hs.mono hextends.depth)
    · exact .inl hj
  · have := hextends.pending
    have hunseen : w.unseen = unseen ⟨w.depths, rest⟩ := rfl
    rw [hlist, List.length_cons]
    dsimp only at this
    omega

/-- **A walk that is long enough settles everything that it reaches.** -/
theorem Explored.run {bound : Nat} {w w' : Walk} (hw : Explored instrs table w)
    (hbound : w.unseen + w.worklist.length ≤ bound) (h : Walk.run instrs table bound w = .ok w') :
    Explored instrs table w' ∧ w'.worklist = [] ∧ ∀ k d, w.depth? k = some d → w'.depth? k = some d := by
  induction bound generalizing w with
  | zero =>
    cases h
    exact ⟨hw, List.eq_nil_of_length_eq_zero (by omega), fun _ _ hd => hd⟩
  | succ bound ih =>
    unfold Walk.run at h
    split at h
    · rename_i hnil
      cases h
      exact ⟨hw, hnil, fun _ _ hd => hd⟩
    · rename_i k rest hlist
      obtain ⟨v, hv, h⟩ := Except.exists_of_bind h
      obtain ⟨hexplored, hpending, hmono⟩ := hw.visit htable hlist hv
      obtain ⟨hfinal, hnil, hdepth⟩ := ih hexplored (by omega) h
      exact ⟨hfinal, hnil, fun j d hd => hdepth j d (hmono j d hd)⟩

end Steps

/-- The walk before its first step has reached the first instruction only. -/
theorem explored_start (table : Array (Option Nat)) (hpos : 0 < instrs.size) :
    Explored instrs table (start instrs.size) ∧
      (start instrs.size).unseen + (start instrs.size).worklist.length = instrs.size ∧
      ∀ k d, (start instrs.size).depth? k = some d ↔ k = 0 ∧ d = 0 := by
  let blank : Walk := ⟨Array.replicate instrs.size none, []⟩
  have hnone : ∀ k, blank.depth? k = none := fun k => by
    rw [depth?, Array.getElem?_replicate]
    split <;> rfl
  have hsize : blank.depths.size = instrs.size := Array.size_replicate
  have hreach : blank.reach instrs 0 0 = .ok (start instrs.size) := by
    rw [reach, hnone]
    rfl
  obtain ⟨hextends, hzero⟩ := extends_of_reach (hsize ▸ hpos) hreach
  have hlist : ∀ k d, (start instrs.size).depth? k = some d → k ∈ (start instrs.size).worklist :=
    fun k d hd => (hextends.fresh k d hd).resolve_left fun h => by rw [hnone] at h; cases h
  refine ⟨⟨hextends.size.trans hsize, ?_, fun k d hd => .inl (hlist k d hd)⟩, ?_, ?_⟩
  · exact fun k hk => (hextends.reached k hk).resolve_left List.not_mem_nil
  · have hcount : blank.unseen = instrs.size := by
      rw [unseen, Array.toList_replicate, List.count_replicate_self]
    rw [hextends.pending, hcount]
    rfl
  · intro k d
    constructor
    · intro hd
      obtain rfl : k = 0 := List.mem_singleton.1 (hlist k d hd)
      exact ⟨rfl, Option.some.inj (hd.symm.trans hzero)⟩
    · rintro ⟨rfl, rfl⟩
      exact hzero

/-! ### Walks that do not fail -/

section Fits

variable {P : Nat → Nat → Prop}

/-- Depths that an instruction can be reached with are unique, enough for what
it pops, and lead to such depths again. -/
structure Fits (instrs : Array Instr) (table : Array (Option Nat)) (P : Nat → Nat → Prop) :
    Prop where
  unique : ∀ k d d', P k d → P k d' → d = d'
  follow : ∀ k d i, P k d → instrs[k]? = some i → i.opcode.pops ≤ d ∧
    ∃ next, successors instrs table k i = .ok next ∧ ∀ j ∈ next, P j (i.opcode.depthAfter d)

/-- All depths that a walk has found can be reached. -/
def Labelled (P : Nat → Nat → Prop) (w : Walk) : Prop := ∀ k d, w.depth? k = some d → P k d

theorem Labelled.reach (hunique : ∀ k d d', P k d → P k d' → d = d') {w : Walk} {k depth : Nat}
    (hw : Labelled P w) (hk : k < w.depths.size) (hP : P k depth) :
    ∃ w', w.reach instrs depth k = .ok w' ∧ w'.depths.size = w.depths.size ∧ Labelled P w' := by
  unfold Walk.reach
  split
  · refine ⟨_, rfl, Array.size_setIfInBounds, fun j d hd => ?_⟩
    rw [depth?_setIfInBounds hk] at hd
    by_cases heq : k = j
    · rw [if_pos heq, Option.some.injEq] at hd
      exact hd ▸ heq ▸ hP
    · rw [if_neg heq] at hd
      exact hw j d hd
  · rename_i seen hseen
    rw [if_pos (hunique k seen depth (hw k seen hseen) hP)]
    exact ⟨w, rfl, rfl, hw⟩

theorem Labelled.foldlM_reach (hunique : ∀ k d d', P k d → P k d' → d = d') {w : Walk}
    {depth : Nat} {next : List Nat} (hw : Labelled P w)
    (hnext : ∀ j ∈ next, j < w.depths.size ∧ P j depth) :
    ∃ w', next.foldlM (Walk.reach instrs depth) w = .ok w' ∧ Labelled P w' := by
  induction next generalizing w with
  | nil => exact ⟨w, rfl, hw⟩
  | cons k next ih =>
    obtain ⟨hk, hP⟩ := hnext k (List.mem_cons_self ..)
    obtain ⟨v, hv, hsize, hlabelled⟩ :
        ∃ v, Walk.reach instrs depth w k = .ok v ∧ _ := hw.reach hunique hk hP
    obtain ⟨w', hw', hlabelled'⟩ := ih hlabelled fun j hj =>
      hsize ▸ hnext j (List.mem_cons_of_mem k hj)
    exact ⟨w', by rw [List.foldlM_cons, hv]; exact hw', hlabelled'⟩

variable (htable : ∀ offset k, indexAt? table offset = some k → k < instrs.size)
  (hfits : Fits instrs table P)

include htable hfits

theorem Labelled.visit {w : Walk} {k depth : Nat} (hw : Labelled P w)
    (hsize : w.depths.size = instrs.size) (hdepth : w.depth? k = some depth) :
    ∃ w', w.visit instrs table k = .ok w' ∧ Labelled P w' := by
  unfold Walk.visit
  split
  · exact ⟨w, rfl, hw⟩
  · rename_i i hi
    obtain ⟨hpops, next, hnext, hfollow⟩ := hfits.follow k depth i (hw k depth hdepth) hi
    rw [hdepth, Option.getD_some]
    dsimp only
    rw [if_neg (Nat.not_lt_of_le hpops), hnext]
    have hlt := lt_size_of_mem_successors htable hnext
    exact hw.foldlM_reach hfits.unique fun j hj => ⟨hsize ▸ hlt j hj, hfollow j hj⟩

/-- **A walk does not fail if there are depths that fit.** -/
theorem exists_run {bound : Nat} {w : Walk} (hexplored : Explored instrs table w)
    (hw : Labelled P w) : ∃ w', Walk.run instrs table bound w = .ok w' := by
  induction bound generalizing w with
  | zero => exact ⟨w, rfl⟩
  | succ bound ih =>
    unfold Walk.run
    split
    · exact ⟨w, rfl⟩
    · rename_i k rest hlist
      obtain ⟨depth, hdepth⟩ := hexplored.reached k (hlist ▸ List.mem_cons_self ..)
      have hpopped : Labelled P ⟨w.depths, rest⟩ := hw
      obtain ⟨v, hv, hlabelled⟩ := hpopped.visit htable hfits hexplored.size hdepth
      rw [hv]
      exact ih (hexplored.visit htable hlist hv).1 hlabelled

end Fits

end Walk

/-! ### The whole check -/

theorem forM_eq_ok_iff {α : Type} {f : α → Except VerifyError Unit} {xs : List α} :
    xs.forM f = .ok () ↔ ∀ x ∈ xs, f x = .ok () := by
  induction xs with
  | nil => exact ⟨fun _ x hx => absurd hx List.not_mem_nil, fun _ => rfl⟩
  | cons x xs ih =>
    have hcons : (x :: xs).forM f = f x >>= fun _ => xs.forM f := rfl
    rw [hcons, List.forall_mem_cons, ← ih]
    constructor
    · intro h
      obtain ⟨_, hx, hxs⟩ := Except.exists_of_bind h
      exact ⟨hx, hxs⟩
    · rintro ⟨hx, hxs⟩
      rw [hx]
      exact hxs

/-- A line passes if it jumps to an instruction or addresses a field that
exists. -/
theorem checkOperand_eq_ok_iff {fields offset : Nat} {l : Line} :
    checkOperand table fields (l.instr offset) = .ok () ↔
      (l.opcode.operandKind = .target → (indexAt? table l.word.toNat).isSome) ∧
      (l.opcode.operandKind = .field → l.word.toNat < fields) := by
  rw [checkOperand, Line.instr]
  cases l.opcode.operandKind <;> simp [Operand.ofWord?, Option.isSome_iff_ne_none]

end Verifier

/-- The control flow leads from an instruction to another one: to the target of
a jump, or to what stands behind an instruction that may go on there. -/
def Instr.Leads (i j : Instr) : Prop :=
  i.target? = some j.offset ∨ i.opcode.fallsThrough = true ∧ i.next = j.offset

namespace Chunk

open Verifier

theorem contiguous_of_instrs? {c : Chunk} {instrs : List Instr} (h : c.instrs? = .ok instrs) :
    Instr.Contiguous 0 instrs ∧ Line.Holds c.code instrs := by
  unfold instrs? at h
  split at h
  · rename_i hdecode
    cases h
    exact Instr.contiguous_of_decodeFrom hdecode
  · cases h

/-- The index table finds the instructions of a chunk by their offsets. -/
theorem indexAt?_iff {c : Chunk} {instrs : List Instr} (h : c.instrs? = .ok instrs) {offset k : Nat} :
    indexAt? (indexTable c.size instrs) offset = some k ↔
      ∃ i, instrs[k]? = some i ∧ i.offset = offset := by
  obtain ⟨hrow, hholds⟩ := contiguous_of_instrs? h
  exact indexAt?_eq_some_iff hrow fun i hi => Instr.lt_size_of_decodeAt (hholds i hi)

theorem lt_size_of_indexAt? {c : Chunk} {instrs : List Instr} (h : c.instrs? = .ok instrs)
    (offset k : Nat) (hk : indexAt? (indexTable c.size instrs) offset = some k) :
    k < instrs.toArray.size := by
  obtain ⟨i, hi, _⟩ := (indexAt?_iff h).1 hk
  exact (List.getElem?_eq_some_iff.1 hi).1

section Successors

variable {c : Chunk} {instrs : List Instr} (hdecode : c.instrs? = .ok instrs) {k : Nat} {i : Instr}
  (hi : instrs[k]? = some i)

include hdecode hi

/-- There is an instruction behind another one if that is not the last. -/
theorem exists_next_iff :
    (∃ j ∈ instrs, i.next = j.offset) ↔ k + 1 < instrs.length := by
  obtain ⟨hrow, _⟩ := contiguous_of_instrs? hdecode
  constructor
  · rintro ⟨j, hj, hnext⟩
    obtain ⟨l, hl⟩ := List.mem_iff_getElem?.1 hj
    have hpos := i.opcode.length_pos
    have hlt : k < l := hrow.lt_of_offset_lt hi hl (by rw [← hnext, Instr.next]; omega)
    have hbound := (List.getElem?_eq_some_iff.1 hl).1
    omega
  · intro hlt
    have hget : instrs[k + 1]? = some instrs[k + 1] := List.getElem?_eq_getElem hlt
    exact ⟨_, List.getElem_mem hlt, (hrow.offset_succ hi hget).symm⟩

/-- The successors of an instruction are defined unless it runs off the end. -/
theorem exists_successors_iff :
    (∃ next, successors instrs.toArray (indexTable c.size instrs) k i = .ok next) ↔
      (i.opcode.fallsThrough = true → ∃ j ∈ instrs, i.next = j.offset) := by
  rw [exists_next_iff hdecode hi, successors]
  by_cases hfalls : i.opcode.fallsThrough = true
  · by_cases hlt : k + 1 < instrs.length <;> simp [hfalls, hlt]
  · simp [hfalls]

/-- **The successors of an instruction are those that it leads to.** -/
theorem mem_successors_iff {next : List Nat}
    (hnext : successors instrs.toArray (indexTable c.size instrs) k i = .ok next) {m : Nat} :
    m ∈ next ↔ ∃ j, instrs[m]? = some j ∧ i.Leads j := by
  have hrow := (contiguous_of_instrs? hdecode).1
  have hjumps : m ∈ (i.target?.bind (indexAt? (indexTable c.size instrs))).toList ↔
      ∃ j, instrs[m]? = some j ∧ i.target? = some j.offset := by
    rw [Option.mem_toList, Option.bind_eq_some_iff]
    constructor
    · rintro ⟨target, htarget, hm⟩
      obtain ⟨j, hj, rfl⟩ := (indexAt?_iff hdecode).1 hm
      exact ⟨j, hj, htarget⟩
    · rintro ⟨j, hj, htarget⟩
      exact ⟨j.offset, htarget, (indexAt?_iff hdecode).2 ⟨j, hj, rfl⟩⟩
  rw [successors] at hnext
  by_cases hfalls : i.opcode.fallsThrough = true
  · by_cases hlt : k + 1 < instrs.length
    · have hbehind : m = k + 1 ↔ ∃ j, instrs[m]? = some j ∧ i.next = j.offset := by
        have hget : instrs[k + 1]? = some instrs[k + 1] := List.getElem?_eq_getElem hlt
        have hoffset := hrow.offset_succ hi hget
        constructor
        · rintro rfl
          exact ⟨_, hget, hoffset.symm⟩
        · rintro ⟨j, hj, hnext⟩
          exact hrow.eq_of_offset hj hget (by rw [hoffset, hnext])
      rw [if_pos hfalls, if_pos (by simpa using hlt), Except.ok.injEq] at hnext
      rw [← hnext, List.mem_append, List.mem_singleton, hjumps, hbehind]
      simp only [Instr.Leads, hfalls, true_and, and_or_left, exists_or]
    · rw [if_pos hfalls, if_neg (by simpa using hlt)] at hnext
      cases hnext
  · rw [if_neg hfalls, Except.ok.injEq] at hnext
    rw [← hnext, hjumps]
    simp [Instr.Leads, hfalls]

end Successors

/-- What the verifier finds in a chunk that passes: its instructions and the
walk through them. -/
structure Verified (c : Chunk) (instrs : List Instr) (w : Walk) : Prop where
  decode : c.instrs? = .ok instrs
  nonempty : instrs ≠ []
  operands : ∀ i ∈ instrs, checkOperand (indexTable c.size instrs) c.fields.size i = .ok ()
  walk : Walk.run instrs.toArray (indexTable c.size instrs) instrs.length
    (Walk.start instrs.length) = .ok w

theorem verify_eq_ok_iff (c : Chunk) :
    c.verify = .ok () ↔ ∃ instrs w, c.Verified instrs w := by
  unfold verify
  constructor
  · intro h
    split at h
    · cases h
    · cases h
    · rename_i instrs hne hdecode
      obtain ⟨_, hoperands, h⟩ := Except.exists_of_bind h
      obtain ⟨w, hwalk, _⟩ := Except.exists_of_bind h
      exact ⟨instrs, w, hdecode, hne, forM_eq_ok_iff.1 hoperands, hwalk⟩
  · rintro ⟨instrs, w, h⟩
    split
    · rename_i hdecode
      rw [h.decode] at hdecode
      cases hdecode
    · rename_i hdecode
      rw [h.decode] at hdecode
      cases hdecode
      exact absurd rfl h.nonempty
    · rename_i hdecode
      rw [h.decode] at hdecode
      cases hdecode
      dsimp only
      rw [forM_eq_ok_iff.2 h.operands]
      show (Walk.run _ _ _ _ >>= _) = _
      rw [h.walk]
      rfl

end Chunk
end FieldScript
