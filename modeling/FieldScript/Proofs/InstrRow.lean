/-
# Rows of instructions

The linear decode of code is a row: every instruction starts where the one
before it ends.  So no two instructions start at one offset, and an instruction
is found by its offset as well as by its index.  That is what the index table of
the verifier does (`indexAt?_eq_some_iff`).
-/

import FieldScript.Chunk.Verifier
import FieldScript.Proofs.Lines

namespace FieldScript

namespace Instr

/-- Instructions one behind the other, the first one at an offset. -/
def Contiguous : Nat → List Instr → Prop
  | _, [] => True
  | offset, i :: is => i.offset = offset ∧ Contiguous i.next is

namespace Contiguous

variable {offset : Nat} {is : List Instr} {i j : Instr} {k l : Nat}

theorem le_offset (h : Contiguous offset is) (hi : i ∈ is) : offset ≤ i.offset := by
  induction is generalizing offset with
  | nil => exact absurd hi List.not_mem_nil
  | cons a is ih =>
    rcases List.mem_cons.1 hi with rfl | hi
    · exact Nat.le_of_eq h.1.symm
    · have := ih h.2 hi
      have hnext : a.offset ≤ a.next := Nat.le_add_right ..
      have := h.1
      omega

theorem offset_zero (h : Contiguous offset is) (hi : is[0]? = some i) : i.offset = offset := by
  cases is with
  | nil => simp at hi
  | cons a is =>
    rw [List.getElem?_cons_zero, Option.some.injEq] at hi
    rw [← hi]
    exact h.1

theorem lt_offset (h : Contiguous i.next is) (hj : j ∈ is) : i.offset < j.offset := by
  have := h.le_offset hj
  have := i.opcode.length_pos
  rw [Instr.next] at *
  omega

/-- The next instruction starts behind this one. -/
theorem offset_succ (h : Contiguous offset is) (hi : is[k]? = some i) (hj : is[k + 1]? = some j) :
    j.offset = i.next := by
  induction is generalizing offset k with
  | nil => simp at hi
  | cons a is ih =>
    cases k with
    | zero =>
      cases is with
      | nil => simp at hj
      | cons b is =>
        simp only [List.getElem?_cons_zero, Option.some.injEq, List.getElem?_cons_succ] at hi hj
        rw [← hi, ← hj]
        exact h.2.1
    | succ k => exact ih h.2 hi hj

theorem offset_lt_of_lt (h : Contiguous offset is) (hi : is[k]? = some i) (hj : is[l]? = some j)
    (hlt : k < l) : i.offset < j.offset := by
  induction is generalizing offset k l with
  | nil => simp at hi
  | cons a is ih =>
    obtain ⟨l, rfl⟩ := Nat.exists_eq_add_one_of_ne_zero (Nat.ne_zero_of_lt hlt)
    cases k with
    | zero =>
      rw [List.getElem?_cons_zero, Option.some.injEq] at hi
      rw [← hi]
      exact h.2.lt_offset (List.mem_of_getElem? hj)
    | succ k => exact ih h.2 hi hj (Nat.lt_of_succ_lt_succ hlt)

/-- The order of the instructions is that of their offsets. -/
theorem lt_of_offset_lt (h : Contiguous offset is) (hi : is[k]? = some i) (hj : is[l]? = some j)
    (hlt : i.offset < j.offset) : k < l := by
  refine Nat.lt_of_not_le fun hge => ?_
  rcases Nat.lt_or_eq_of_le hge with hlk | rfl
  · have := h.offset_lt_of_lt hj hi hlk
    omega
  · rw [hi, Option.some.injEq] at hj
    rw [hj] at hlt
    omega

/-- No two instructions start at one offset. -/
theorem eq_of_offset (h : Contiguous offset is) (hi : is[k]? = some i) (hj : is[l]? = some j)
    (heq : i.offset = j.offset) : k = l := by
  rcases Nat.lt_trichotomy k l with hlt | rfl | hlt
  · have := h.offset_lt_of_lt hi hj hlt
    omega
  · rfl
  · have := h.offset_lt_of_lt hj hi hlt
    omega

end Contiguous

/-- **What the linear decode gives is a row,** and the code holds it. -/
theorem contiguous_of_decodeFrom {code : Array UInt8} {offset : Nat} {is : List Instr}
    (h : decodeFrom code offset = (is, none)) : Contiguous offset is ∧ Line.Holds code is := by
  fun_induction decodeFrom code offset generalizing is with
  | case1 offset _ e _ => simp at h
  | case2 offset _ i hi rest fault hrest ih =>
    cases h
    have hoffset := offset_of_decodeAt hi
    obtain ⟨hrow, hholds⟩ := ih hrest
    refine ⟨⟨hoffset, ?_⟩, ?_⟩
    · rw [Instr.next, hoffset]
      exact hrow
    · rw [Line.Holds.cons_iff]
      refine ⟨fun j hj => ?_, hholds⟩
      rw [List.mem_singleton.1 hj, hoffset, hi]
  | case3 offset _ =>
    cases h
    exact ⟨trivial, fun i hi => absurd hi List.not_mem_nil⟩

end Instr

/-! ### The index table -/

namespace Verifier

theorem indexAt?_setIfInBounds {table : Array (Option Nat)} {first : Nat} (h : first < table.size)
    (k offset : Nat) :
    indexAt? (table.setIfInBounds first (some k)) offset =
      if first = offset then some k else indexAt? table offset := by
  rw [indexAt?, Array.getElem?_setIfInBounds]
  by_cases heq : first = offset
  · rw [if_pos heq, if_pos heq, if_pos h]
    rfl
  · rw [if_neg heq, if_neg heq]
    rfl

/-- The table after more instructions were entered, from index `n` on. -/
theorem indexAt?_foldl {is : List Instr} {first : Nat} (h : Instr.Contiguous first is) (n : Nat)
    (table : Array (Option Nat)) (hsize : ∀ i ∈ is, i.offset < table.size) (offset : Nat) :
    indexAt? ((is.zipIdx n).foldl
        (fun table (i, k) => table.setIfInBounds i.offset (some k)) table) offset =
      match is.findIdx? (·.offset = offset) with
      | some k => some (n + k)
      | none => indexAt? table offset := by
  induction is generalizing first n table with
  | nil => rfl
  | cons i is ih =>
    have hlater : ∀ j ∈ is, i.offset < j.offset := fun j hj => h.2.lt_offset hj
    rw [List.zipIdx_cons, List.foldl_cons, ih h.2 (n + 1) _ fun j hj => by
      rw [Array.size_setIfInBounds]; exact hsize j (List.mem_cons_of_mem i hj),
      indexAt?_setIfInBounds (hsize i (List.mem_cons_self ..)), List.findIdx?_cons]
    by_cases hi : i.offset = offset
    · have hnone : is.findIdx? (·.offset = offset) = none := by
        rw [List.findIdx?_eq_none_iff]
        intro j hj
        have := hlater j hj
        exact decide_eq_false (by omega)
      rw [hnone, if_pos hi, if_pos (decide_eq_true hi)]
      rfl
    · rw [if_neg hi, if_neg (by simpa using hi)]
      cases is.findIdx? (·.offset = offset) with
      | none => rfl
      | some k => simp only [Option.map_some, Nat.add_assoc, Nat.add_comm 1]

theorem indexAt?_eq_some_iff {size : Nat} {is : List Instr} (h : Instr.Contiguous 0 is)
    (hsize : ∀ i ∈ is, i.offset < size) {offset k : Nat} :
    indexAt? (indexTable size is) offset = some k ↔ ∃ i, is[k]? = some i ∧ i.offset = offset := by
  have hempty : indexAt? (Array.replicate size none) offset = none := by
    rw [indexAt?, Array.getElem?_replicate]
    split <;> rfl
  have htable : indexAt? (indexTable size is) offset = is.findIdx? (·.offset = offset) := by
    rw [indexTable, indexAt?_foldl h 0 _ (by simpa using hsize), hempty]
    cases is.findIdx? (·.offset = offset) <;> simp
  rw [htable]
  constructor
  · intro hfind
    obtain ⟨hlt, hoffset, _⟩ := List.findIdx?_eq_some_iff_getElem.1 hfind
    exact ⟨is[k], List.getElem?_eq_getElem hlt, of_decide_eq_true hoffset⟩
  · rintro ⟨i, hi, rfl⟩
    obtain ⟨hlt, hget⟩ := List.getElem?_eq_some_iff.1 hi
    refine List.findIdx?_eq_some_iff_getElem.2 ⟨hlt, by rw [hget]; exact decide_eq_true rfl, ?_⟩
    intro j hj
    have hne : is[j].offset ≠ i.offset := fun heq => by
      have := h.eq_of_offset (List.getElem?_eq_getElem (Nat.lt_trans hj hlt)) hi heq
      omega
    simpa using hne

end Verifier
end FieldScript
