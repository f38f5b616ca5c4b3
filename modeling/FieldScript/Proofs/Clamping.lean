/-
# Clamping between bounds in any order

A number is kept between two bounds if it becomes the smaller of the upper bound
and the larger of the lower bound and itself.  The machine asks instead whether
the number is above the upper bound, and only then whether it is below the lower
one.  For bounds in order the two agree.  If the lower bound is above the upper
one they agree only for numbers above the upper bound: any other number is
raised to the lower bound, past the upper one (`clamp_of_crossed`).

The three operands reach the machine in the order in which they are written,
whether they are numbers or fields (`leaves_clampInto`).
-/

import FieldScript.Proofs.Conditions

namespace FieldScript
namespace Single

/-- The larger of two numbers, the left one if they are equal. -/
def larger (x y : Single) : Single := if x.lt y then y else x

/-- The smaller of two numbers, the left one if they are equal. -/
def smaller (x y : Single) : Single := if y.lt x then y else x

/-- The lower bound is above the upper one, and the number is not. -/
def crossed (lower upper x : Single) : Bool := upper.lt lower && x.le upper

section Numbers

variable {x y : Single} (hx : x.isNaN = false) (hy : y.isNaN = false)

include hx hy

theorem numEq_iff_rank : x.numEq y = true ↔ x.rank = y.rank := by
  simp [numEq, comparable, hx, hy]

theorem lt_iff_rank : x.lt y = true ↔ x.rank < y.rank := by
  simp [lt, comparable, hx, hy]

theorem le_iff_rank : x.le y = true ↔ x.rank ≤ y.rank := by
  simp [le, comparable, hx, hy]

theorem rank_larger : (x.larger y).rank = max x.rank y.rank := by
  unfold larger
  by_cases h : x.rank < y.rank
  · rw [if_pos ((lt_iff_rank hx hy).2 h)]
    omega
  · rw [if_neg (mt (lt_iff_rank hx hy).1 h)]
    omega

theorem rank_smaller : (x.smaller y).rank = min x.rank y.rank := by
  unfold smaller
  by_cases h : y.rank < x.rank
  · rw [if_pos ((lt_iff_rank hy hx).2 h)]
    omega
  · rw [if_neg (mt (lt_iff_rank hy hx).1 h)]
    omega

theorem isNaN_larger : (x.larger y).isNaN = false := by
  unfold larger
  split <;> assumption

theorem isNaN_smaller : (x.smaller y).isNaN = false := by
  unfold smaller
  split <;> assumption

end Numbers

section Clamp

variable {lower upper x : Single} (hl : lower.isNaN = false) (hu : upper.isNaN = false)
  (hx : x.isNaN = false)

include hl hu hx

theorem isNaN_clamp : (clamp lower upper x).isNaN = false := by
  unfold clamp
  split
  · exact hu
  · split <;> assumption

theorem crossed_iff_rank :
    crossed lower upper x = true ↔ upper.rank < lower.rank ∧ x.rank ≤ upper.rank := by
  rw [crossed, Bool.and_eq_true_iff, lt_iff_rank hu hl, le_iff_rank hx hu]

/-- Beyond crossed bounds a number is raised to the lower bound. -/
theorem clamp_of_crossed (h : crossed lower upper x = true) : clamp lower upper x = lower := by
  obtain ⟨hbounds, hle⟩ := (crossed_iff_rank hl hu hx).1 h
  have hnot : ¬upper.lt x = true := by
    rw [lt_iff_rank hu hx]
    omega
  have hlt : x.lt lower = true := by
    rw [lt_iff_rank hx hl]
    omega
  rw [clamp, if_neg hnot, if_pos hlt]

/-- **Clamping is the smaller of the upper bound and the larger of the lower
bound and the number, unless the bounds are crossed.** -/
theorem clamp_numEq_iff :
    (clamp lower upper x).numEq (upper.smaller (lower.larger x)) = true ↔
      crossed lower upper x = false := by
  have hlarger := isNaN_larger hl hx
  rw [numEq_iff_rank (isNaN_clamp hl hu hx) (isNaN_smaller hu hlarger), rank_smaller hu hlarger,
    rank_larger hl hx, ← Bool.not_eq_true, crossed_iff_rank hl hu hx]
  unfold clamp
  by_cases habove : upper.rank < x.rank
  · rw [if_pos ((lt_iff_rank hu hx).2 habove)]
    omega
  · rw [if_neg (mt (lt_iff_rank hu hx).1 habove)]
    by_cases hbelow : x.rank < lower.rank
    · rw [if_pos ((lt_iff_rank hx hl).2 hbelow)]
      omega
    · rw [if_neg (mt (lt_iff_rank hx hl).1 hbelow)]
      omega

end Clamp

def five : Single := ⟨0x40a00000⟩

end Single

namespace Leaf

/-- `name = clamp(lower, upper, x);` -/
def clampInto (name : String) (lower upper x : Leaf) : Expr :=
  .block [.assign name (.call "clamp" [lower.expr, upper.expr, x.expr])]

/-- The value for the fields of a chunk. -/
def valueIn (g : Chunk) (l : Leaf) : Single := l.value (Condition.values g)

theorem fault_value (l : Leaf) : l.expr.layout.value.fault = none := by
  cases l <;> rfl

theorem size_value (l : Leaf) : l.expr.layout.value.size = 5 := by
  cases l <;> rfl

theorem assigned_value (l : Leaf) : l.expr.layout.value.assigned = [] := by
  cases l <;> rfl

section Clamp

variable (name : String) (lower upper x : Leaf)

/-- The code is three operands, the instruction, a store and the return. -/
theorem footprint_clampInto :
    (clampInto name lower upper x).program.fault = none ∧
      (clampInto name lower upper x).program.size = 22 ∧
      (clampInto name lower upper x).program.assigned = [name] := by
  have hcall : intrinsic? "clamp" = some ⟨.clamp, 3⟩ := rfl
  simp [clampInto, Expr.program, Expr.layout, Expr.layoutAll, Segment.all, Segment.seq,
    Footprint.seq, Layout.ofStatement, Layout.ofValue, Segment.call, hcall, Segment.empty,
    Segment.emit, Segment.line, Segment.access, Footprint.ofSize, fault_value, size_value,
    assigned_value, Opcode.length, Opcode.operandKind]

theorem run_clampInto (w : World) :
    ((clampInto name lower upper x).run w).fields =
      Field.write name (Single.clamp (lower.value w.read) (upper.value w.read) (x.value w.read))
        w.fields := by
  have hcall : Builtin.named? "clamp" = some (Builtin.ternary Single.clamp) := rfl
  simp only [clampInto, Expr.run, Expr.meaning, Expr.meaningAll, Meaning.runAll, Meaning.ofValue,
    Meaning.values, hcall, value_meaning, Builtin.ternary]
  rfl

/-- **The program stores the clamped number,** whatever the chunk holds. -/
theorem leaves_clampInto {g : Chunk} (hcode : g.code = #[])
    (hfields : g.fields.size < UInt32.size) :
    ∃ f, ((clampInto name lower upper x).compileInto g).result = .ok f ∧
      ∀ m : Machine, (m.run f).ending = .returned ∧ (m.run f).chunk.value? name =
        some (Single.clamp (lower.valueIn g) (upper.valueIn g) (x.valueIn g)) := by
  obtain ⟨hfault, hsize, hassigned⟩ := footprint_clampInto name lower upper x
  have hleaves : (clampInto name lower upper x).Leaves g (Field.write name
      (Single.clamp (lower.valueIn g) (upper.valueIn g) (x.valueIn g)) g.fields.toList) :=
    Expr.leaves_of_run hcode hfault fun generator =>
      run_clampInto name lower upper x ⟨g.fields.toList, generator⟩
  obtain ⟨f, hresult, hrun⟩ := hleaves
  obtain ⟨-, rfl⟩ := Expr.eq_laidOut_of_result hresult
  refine ⟨_, hresult, fun m => ?_⟩
  have hcodeSize : ((clampInto name lower upper x).laidOut g).code.size < UInt32.size := by
    show ((clampInto name lower upper x).laidOut g).size < UInt32.size
    rw [Expr.size_laidOut _ hcode, hsize]
    decide
  have hfieldsSize : ((clampInto name lower upper x).laidOut g).fields.size ≤ UInt32.size := by
    have hlength := length_foldl_declareName_le g.names [name]
    rw [← hassigned, ← Expr.names_laidOut_eq, Chunk.length_names, Chunk.length_names, hassigned,
      List.length_singleton] at hlength
    omega
  obtain ⟨hending, hleft⟩ := hrun hcodeSize hfieldsSize m
  refine ⟨hending, ?_⟩
  rw [Chunk.value?_eq_ite, Chunk.names, hleft, Field.names_write, if_pos (mem_declareName _ _),
    Field.read_write]

/-- **What `clamp` stores.**  Of operands that are no NaNs the program stores the
smaller of the upper bound and the larger of the lower bound and the number,
exactly unless the bounds are crossed and the number is not above them; then it
stores the lower bound. -/
theorem clampInto_stores {g : Chunk} (hcode : g.code = #[]) (hfields : g.fields.size < UInt32.size)
    (hl : (lower.valueIn g).isNaN = false) (hu : (upper.valueIn g).isNaN = false)
    (hx : (x.valueIn g).isNaN = false) :
    ∃ f r, ((clampInto name lower upper x).compileInto g).result = .ok f ∧
      (∀ m : Machine, (m.run f).ending = .returned ∧ (m.run f).chunk.value? name = some r) ∧
      (r.numEq ((upper.valueIn g).smaller ((lower.valueIn g).larger (x.valueIn g))) = true ↔
        Single.crossed (lower.valueIn g) (upper.valueIn g) (x.valueIn g) = false) ∧
      (Single.crossed (lower.valueIn g) (upper.valueIn g) (x.valueIn g) = true →
        r = lower.valueIn g) := by
  obtain ⟨f, hresult, hrun⟩ := leaves_clampInto name lower upper x hcode hfields
  exact ⟨f, _, hresult, hrun, Single.clamp_numEq_iff hl hu hx, Single.clamp_of_crossed hl hu hx⟩

end Clamp

/-- A chunk with a field that is infinite. -/
def chunkWithInfinity : Chunk :=
  ⟨#[], #[⟨Chunk.positionName, Single.zero⟩, ⟨"top", Single.infinity false⟩]⟩

/-- `r = clamp(top, 1, 5);` with an infinite lower bound: the number is above the
upper bound and is cut to it. -/
theorem clampInto_aboveCrossed :
    let g := chunkWithInfinity
    let e := clampInto "r" (field "top") (number Single.one) (number Single.five)
    g.code = #[] ∧ g.fields.size < UInt32.size ∧
      (field "top").valueIn g = Single.infinity false ∧ (Single.infinity false).isNaN = false ∧
      Single.one.isNaN = false ∧ Single.five.isNaN = false ∧
      ∃ f r, (e.compileInto g).result = .ok f ∧
        (∀ m : Machine, (m.run f).ending = .returned ∧ (m.run f).chunk.value? "r" = some r) ∧
        r.numEq Single.one = true := by
  obtain ⟨f, r, hresult, hrun, hmeets, -⟩ := clampInto_stores "r" (field "top") (number Single.one)
    (number Single.five) (g := chunkWithInfinity) rfl (by decide) rfl rfl rfl
  exact ⟨rfl, by decide, rfl, rfl, rfl, rfl, f, r, hresult, hrun, hmeets.2 rfl⟩

/-- `r = clamp(5, 1, 0);` stores 5, and the smaller of 1 and the larger of 5 and
0 is 1. -/
theorem clampInto_crossedNumbers :
    let e := clampInto "r" (number Single.five) (number Single.one) (number Single.zero)
    (∃ f, (e.compileInto Chunk.empty).result = .ok f ∧
      ∀ m : Machine, (m.run f).ending = .returned ∧ (m.run f).chunk.value? "r" = some Single.five) ∧
      Single.one.smaller (Single.five.larger Single.zero) = Single.one ∧
      Single.five.numEq Single.one = false :=
  ⟨leaves_clampInto "r" (number Single.five) (number Single.one) (number Single.zero) rfl (by decide),
    rfl, rfl⟩

end Leaf
end FieldScript
