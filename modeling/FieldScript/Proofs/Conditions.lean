/-
# When a condition is taken

A condition over numbers and fields is true or false of the values of the
fields: comparisons hold or not, `&&` and `||` join them, and a bare value is
true if it differs from zero.  Its code asks something else.  A comparison under
`||` jumps when it holds, but one that stands alone or under `&&` jumps when the
negated comparison holds.  The two differ for an ordering with a NaN, where
neither the comparison nor its negation holds: the code does not jump, and the
comparison is taken for true.

So a condition is taken if it is true or *mistaken* (`Condition.leaves_guard`,
`Condition.leaves_store`).  A mistaken condition is false, and there is an
ordering with a NaN in it that stands alone or under `&&`; without a NaN, and
with infinities, a condition is taken if and only if it is true.
-/

import FieldScript.Proofs.Correctness

namespace FieldScript

/-! ### Comparisons with a NaN -/

theorem Single.comparable_comm (x y : Single) : x.comparable y = y.comparable x :=
  Bool.and_comm _ _

namespace CmpOp

def isOrdering : CmpOp → Bool
  | eq | ne => false
  | lt | gt | le | ge => true

/-- An ordering of two numbers of which one is a NaN. -/
def unordered (op : CmpOp) (x y : Single) : Bool := op.isOrdering && !x.comparable y

theorem holds_of_unordered {op : CmpOp} {x y : Single} (h : op.unordered x y = true) :
    op.holds x y = false := by
  obtain ⟨hop, hnan⟩ := Bool.and_eq_true_iff.1 h
  have hxy : x.comparable y = false := by simpa using hnan
  have hyx : y.comparable x = false := x.comparable_comm y ▸ hxy
  cases op <;> simp [holds, Single.lt, Single.le, hxy, hyx] <;> cases hop

/-- A comparison that stands alone or under `&&` is taken if it holds or orders
a NaN. -/
theorem judge_and (op : CmpOp) (x y : Single) :
    op.judge .and x y = (op.holds x y || op.unordered x y) := by
  cases hxy : x.comparable y with
  | true => simp [judge, holds_negated op hxy, unordered, hxy]
  | false =>
    have hyx : y.comparable x = false := x.comparable_comm y ▸ hxy
    cases op <;>
      simp [judge, negated, holds, unordered, isOrdering, Single.numEq, Single.lt, Single.le,
        hxy, hyx]

end CmpOp

/-! ### Conditions over numbers and fields -/

/-- A value that is a number or a field. -/
inductive Leaf where
  | number (x : Single)
  | field (name : String)
deriving DecidableEq, Inhabited

namespace Leaf

def expr : Leaf → Expr
  | number x => .literal x
  | field name => .ident name

/-- The value for given values of the fields. -/
def value (v : String → Single) : Leaf → Single
  | number x => x
  | field name => v name

theorem value_meaning (l : Leaf) (w : World) : l.expr.meaning.value w = (l.value w.read, w) := by
  cases l <;> rfl

end Leaf

/-- Comparisons and bare values, joined by `&&` and `||`. -/
inductive Condition where
  | compare (op : CmpOp) (lhs rhs : Leaf)
  | bare (leaf : Leaf)
  | or (lhs rhs : Condition)
  | and (lhs rhs : Condition)
deriving DecidableEq, Inhabited

namespace Condition

def expr : Condition → Expr
  | compare op lhs rhs => .cmp op lhs.expr rhs.expr
  | bare leaf => leaf.expr
  | or lhs rhs => .or lhs.expr rhs.expr
  | and lhs rhs => .and lhs.expr rhs.expr

section Truth

variable (v : String → Single)

/-- Whether a condition is true for given values of the fields. -/
def truth : Condition → Bool
  | compare op lhs rhs => op.holds (lhs.value v) (rhs.value v)
  | bare leaf => !(leaf.value v).numEq Single.zero
  | or lhs rhs => lhs.truth || rhs.truth
  | and lhs rhs => lhs.truth && rhs.truth

/-- Whether a condition under a junction is false and yet taken.  It starts with
an ordering of a NaN that is not under `||`; `||` passes a mistake on if it has
no true operand, `&&` if each operand is true or mistaken. -/
def mistaken : Condition → Junction → Bool
  | compare op lhs rhs, .and => op.unordered (lhs.value v) (rhs.value v)
  | compare _ _ _, .or => false
  | bare _, _ => false
  | or lhs rhs, _ =>
    !lhs.truth v && !rhs.truth v && (lhs.mistaken .or || rhs.mistaken .or)
  | and lhs rhs, _ =>
    (lhs.mistaken .and && (rhs.truth v || rhs.mistaken .and)) || (lhs.truth v && rhs.mistaken .and)

/-- Whether some comparison that is not directly under `||` orders a NaN. -/
def hasUnordered : Condition → Junction → Bool
  | compare op lhs rhs, .and => op.unordered (lhs.value v) (rhs.value v)
  | compare _ _ _, .or => false
  | bare _, _ => false
  | or lhs rhs, _ => lhs.hasUnordered .or || rhs.hasUnordered .or
  | and lhs rhs, _ => lhs.hasUnordered .and || rhs.hasUnordered .and

/-- Whether the code of a condition goes on as if it were true. -/
def taken (c : Condition) (junction : Junction) : Bool := c.truth v || c.mistaken v junction

/-- The value of a condition: 1 or 0, or the bare value itself. -/
def stored : Condition → Single
  | bare leaf => leaf.value v
  | c => if c.taken v .and then Single.one else Single.zero

variable {v}

/-- A mistaken condition is false. -/
theorem truth_of_mistaken {c : Condition} {junction : Junction}
    (h : c.mistaken v junction = true) : c.truth v = false := by
  induction c generalizing junction with
  | compare op lhs rhs =>
    cases junction with
    | and => exact CmpOp.holds_of_unordered h
    | or => cases h
  | bare leaf => cases h
  | or lhs rhs =>
    rw [mistaken, Bool.and_eq_true_iff, Bool.and_eq_true_iff] at h
    obtain ⟨⟨hl, hr⟩, -⟩ := h
    rw [Bool.not_eq_true'] at hl hr
    rw [truth, hl, hr, Bool.or_false]
  | and lhs rhs ihl ihr =>
    rw [mistaken, Bool.or_eq_true_iff, Bool.and_eq_true_iff, Bool.and_eq_true_iff] at h
    rcases h with ⟨hl, -⟩ | ⟨-, hr⟩
    · rw [truth, ihl hl, Bool.false_and]
    · rw [truth, ihr hr, Bool.and_false]

theorem taken_eq_truth_iff {c : Condition} {junction : Junction} :
    c.taken v junction = c.truth v ↔ c.mistaken v junction = false := by
  cases h : c.mistaken v junction with
  | false => simp [taken, h]
  | true => simp [taken, h, truth_of_mistaken h]

/-- There is an ordering of a NaN in a mistaken condition. -/
theorem hasUnordered_of_mistaken {c : Condition} {junction : Junction}
    (h : c.mistaken v junction = true) : c.hasUnordered v junction = true := by
  induction c generalizing junction with
  | compare op lhs rhs =>
    cases junction with
    | and => exact h
    | or => cases h
  | bare leaf => cases h
  | or lhs rhs ihl ihr =>
    rw [mistaken, Bool.and_eq_true_iff, Bool.or_eq_true_iff] at h
    rw [hasUnordered, Bool.or_eq_true_iff]
    exact h.2.imp ihl ihr
  | and lhs rhs ihl ihr =>
    rw [mistaken, Bool.or_eq_true_iff, Bool.and_eq_true_iff, Bool.and_eq_true_iff] at h
    rw [hasUnordered, Bool.or_eq_true_iff]
    exact h.imp (fun h => ihl h.1) fun h => ihr h.2

theorem taken_compare (op : CmpOp) (lhs rhs : Leaf) (junction : Junction) :
    (compare op lhs rhs).taken v junction = op.judge junction (lhs.value v) (rhs.value v) := by
  cases junction with
  | and => exact (op.judge_and _ _).symm
  | or => exact Bool.or_false _

theorem taken_or (lhs rhs : Condition) (junction : Junction) :
    (or lhs rhs).taken v junction = (lhs.taken v .or || rhs.taken v .or) := by
  simp only [taken, truth, mistaken]
  cases lhs.truth v <;> cases rhs.truth v <;> simp

theorem taken_and (lhs rhs : Condition) (junction : Junction) :
    (and lhs rhs).taken v junction = (lhs.taken v .and && rhs.taken v .and) := by
  simp only [taken, truth, mistaken]
  cases lhs.truth v <;> cases rhs.truth v <;> simp [Bool.and_comm]

end Truth

/-! ### The code of a condition -/

theorem assigned_expr (c : Condition) : c.expr.assigned = [] := by
  induction c with
  | compare op lhs rhs => cases lhs <;> cases rhs <;> rfl
  | bare leaf => cases leaf <;> rfl
  | or lhs rhs ihl ihr => rw [expr, Expr.assigned, ihl, ihr, List.nil_append]
  | and lhs rhs ihl ihr => rw [expr, Expr.assigned, ihl, ihr, List.nil_append]

/-- **A condition is taken if it is true or mistaken,** and changes nothing. -/
theorem condition_meaning (c : Condition) (junction : Junction) (w : World) :
    c.expr.meaning.condition junction w = (c.taken w.read junction, w) := by
  induction c generalizing junction with
  | compare op lhs rhs =>
    rw [taken_compare, expr, Expr.meaning, Meaning.ofCondition]
    simp only [Leaf.value_meaning]
  | bare leaf =>
    cases leaf <;> exact congrArg (·, w) (Bool.or_false _).symm
  | or lhs rhs ihl ihr =>
    rw [taken_or, expr, Expr.meaning, Meaning.ofCondition]
    simp only [ihl, ihr, assigned_expr]
    cases lhs.taken w.read .or <;> rfl
  | and lhs rhs ihl ihr =>
    rw [taken_and, expr, Expr.meaning, Meaning.ofCondition]
    simp only [ihl, ihr, assigned_expr]
    cases lhs.taken w.read .and <;> rfl

theorem value_meaning (c : Condition) (w : World) :
    c.expr.meaning.value w = (c.stored w.read, w) := by
  have h := c.condition_meaning .and w
  cases c with
  | compare op lhs rhs => exact Meaning.value_ofCondition h
  | bare leaf => exact leaf.value_meaning w
  | or lhs rhs => exact Meaning.value_ofCondition h
  | and lhs rhs => exact Meaning.value_ofCondition h

/-- A condition makes no call, so there is no fault in its code. -/
theorem fault_layout (c : Condition) :
    c.expr.layout.value.fault = none ∧ ∀ junction, (c.expr.layout.condition junction).fault = none := by
  induction c with
  | compare op lhs rhs => cases lhs <;> cases rhs <;> exact ⟨rfl, fun _ => rfl⟩
  | bare leaf => cases leaf <;> exact ⟨rfl, fun _ => rfl⟩
  | or lhs rhs ihl ihr =>
    have h := JumpSegment.fault_branch .or (ihl.2 .or) (ihr.2 .or)
    exact ⟨Option.or_eq_none_iff.2 ⟨h, rfl⟩, fun _ => h⟩
  | and lhs rhs ihl ihr =>
    have h := JumpSegment.fault_branch .and (ihl.2 .and) (ihr.2 .and)
    exact ⟨Option.or_eq_none_iff.2 ⟨h, rfl⟩, fun _ => h⟩

end Condition

/-! ### Programs that show a condition -/

/-- A tree compiles into a chunk, and its runs return and leave the given
fields.  The code and the fields have to be in the range of a word. -/
def Expr.Leaves (e : Expr) (g : Chunk) (fields : List Field) : Prop :=
  ∃ f, (e.compileInto g).result = .ok f ∧
    (f.code.size < UInt32.size → f.fields.size ≤ UInt32.size →
      ∀ m : Machine, (m.run f).ending = .returned ∧ (m.run f).chunk.fields.toList = fields)

theorem Expr.leaves_of_run {e : Expr} {g : Chunk} {fields : List Field} (hcode : g.code = #[])
    (hfault : e.program.fault = none)
    (hrun : ∀ generator, (e.run ⟨g.fields.toList, generator⟩).fields = fields) :
    e.Leaves g fields := by
  refine ⟨e.laidOut g, ?_, fun hsize hfields m => ?_⟩
  · rw [result_compileInto, hfault]
  · obtain ⟨hending, -, hchunk⟩ := e.run_laidOut hcode hsize hfields hfault m
    refine ⟨hending, ?_⟩
    rw [hchunk, List.toList_toArray, hrun]

namespace Condition

/-- `if (c) { name = 1; }` -/
def guard (c : Condition) (name : String) : Expr :=
  .block [.conditional c.expr (.block [.assign name (.literal Single.one)])]

/-- `name = c;` -/
def store (c : Condition) (name : String) : Expr := .block [.assign name c.expr]

/-- The values of the fields of a chunk, zero for any other name. -/
def values (g : Chunk) (name : String) : Single := Field.read name g.fields.toList

section Programs

variable (c : Condition) (name : String) {g : Chunk} (hcode : g.code = #[])

include hcode

theorem leaves_guard :
    (c.guard name).Leaves g (if c.taken (values g) .and then
      Field.write name Single.one g.fields.toList else Field.declare name g.fields.toList) := by
  refine Expr.leaves_of_run hcode ?_ fun generator => ?_
  · have h := c.fault_layout.2 .and
    simp only [guard, Expr.program, Expr.layout, Expr.layoutAll, Segment.conditional,
      Segment.seq, Footprint.seq, Segment.all, List.map_cons, List.map_nil, Layout.ofStatement, h]
    rfl
  · have h := c.condition_meaning .and ⟨g.fields.toList, generator⟩
    simp only [guard, Expr.run, Expr.meaning, Expr.meaningAll, Meaning.runAll, Meaning.ofValue, h]
    split
    · rw [if_pos ‹_›]; rfl
    · rw [if_neg ‹_›]; rfl

theorem leaves_store :
    (c.store name).Leaves g (Field.write name (c.stored (values g)) g.fields.toList) := by
  refine Expr.leaves_of_run hcode ?_ fun generator => ?_
  · have h := c.fault_layout.1
    simp only [store, Expr.program, Expr.layout, Expr.layoutAll, Segment.seq, Footprint.seq,
      Segment.all, List.map_cons, List.map_nil, Layout.ofStatement, h]
    rfl
  · have h := c.value_meaning ⟨g.fields.toList, generator⟩
    simp only [store, Expr.run, Expr.meaning, Expr.meaningAll, Meaning.runAll, Meaning.ofValue, h]
    rfl

/-- **When a condition is taken.**  The assignment behind a condition is carried
out if the condition is true or mistaken, and so a condition that is no bare
value is stored as 1.  A condition is taken exactly when it is true unless it is
mistaken, and that needs an ordering of a NaN that is not directly under `||`. -/
theorem leaves_taken :
    (c.guard name).Leaves g (if c.truth (values g) || c.mistaken (values g) .and then
        Field.write name Single.one g.fields.toList else Field.declare name g.fields.toList) ∧
      (c.store name).Leaves g (Field.write name (c.stored (values g)) g.fields.toList) ∧
      (c.taken (values g) .and = c.truth (values g) ↔ c.mistaken (values g) .and = false) ∧
      (c.mistaken (values g) .and = true → c.hasUnordered (values g) .and = true) :=
  ⟨c.leaves_guard name hcode, c.leaves_store name hcode, taken_eq_truth_iff,
    hasUnordered_of_mistaken⟩

end Programs

/-- A chunk with a field that is a NaN. -/
def chunkWithNaN : Chunk := ⟨#[], #[⟨Chunk.positionName, Single.zero⟩, ⟨"a", Single.nan⟩]⟩

/-- `(a < 1 || a != a) && a >= 0` -/
def guardedOrdering : Condition :=
  and (or (compare .lt (.field "a") (.number Single.one)) (compare .ne (.field "a") (.field "a")))
    (compare .ge (.field "a") (.number Single.zero))

theorem leaves_guardedOrdering :
    let f := (guardedOrdering.guard "hit").laidOut chunkWithNaN
    chunkWithNaN.code = #[] ∧ ((guardedOrdering.guard "hit").compileInto chunkWithNaN).result = .ok f ∧
      f.code.size < UInt32.size ∧ f.fields.size ≤ UInt32.size ∧
      (Machine.new.run f).ending = .returned ∧
      (Machine.new.run f).chunk.fields.toList =
        [⟨Chunk.positionName, Single.zero⟩, ⟨"a", Single.nan⟩, ⟨"hit", Single.one⟩] := by
  obtain ⟨⟨f, hresult, hrun⟩, -⟩ := leaves_taken guardedOrdering "hit" (g := chunkWithNaN) rfl
  obtain ⟨-, rfl⟩ := Expr.eq_laidOut_of_result hresult
  obtain ⟨hending, hfields⟩ := hrun (by decide) (by decide) Machine.new
  exact ⟨rfl, hresult, by decide, by decide, hending, hfields⟩

/-- `a < 1` is false if `a` is a NaN, and yet it is taken. -/
theorem taken_nan_lt_one :
    let c := compare .lt (.field "a") (.number Single.one)
    c.truth (values chunkWithNaN) = false ∧
      (c.guard "hit").Leaves chunkWithNaN
        [⟨Chunk.positionName, Single.zero⟩, ⟨"a", Single.nan⟩, ⟨"hit", Single.one⟩] ∧
      (c.store "hit").Leaves chunkWithNaN
        [⟨Chunk.positionName, Single.zero⟩, ⟨"a", Single.nan⟩, ⟨"hit", Single.one⟩] := by
  intro c
  exact ⟨rfl, c.leaves_guard "hit" rfl, c.leaves_store "hit" rfl⟩

end Condition
end FieldScript
