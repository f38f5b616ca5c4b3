/-
# The layout of compiled code

The compiler writes jumps before it knows where they go and patches them later.
A *layout* is the same code with all targets known from the start.  That is
possible because the number of bytes that a node takes does not depend on where
the node stands or on what is declared: a read takes five bytes whether the
field is known or not.  So the place of every part of a node can be computed
before the part itself.

A segment is a piece of code as a function of its *site*: the offset where it
starts and the names that are declared there.  A jump segment is the code of a
condition, which also needs its exits.  Both carry their *footprint*, which is
what they do to whatever follows: the first fault in them, the bytes they take,
the names they assign and what they report.

| piece | lines |
| --- | --- |
| `truthValue c` | `c`, `push 1`, `jump stop`, `push 0` |
| `conditional c body` | `c`, `body`, `jump stop` |
| `branch j l r` | `l`, `r`, `jump` to where both operands fall through to |
-/

import FieldScript.Compiler
import FieldScript.Proofs.FieldTable
import FieldScript.Proofs.Lines

namespace FieldScript

/-- Where a piece of code stands: its offset and the names declared before it. -/
structure Site where
  offset : Nat
  names : List String
deriving DecidableEq, Inhabited

/-- What a piece of code does to whatever follows it. -/
structure Footprint where
  fault : Option CompileError
  size : Nat
  assigned : List String
  events : Site → List Event

/-- The site behind a piece of code. -/
def Site.after (s : Site) (f : Footprint) : Site :=
  ⟨s.offset + f.size, f.assigned.foldl declareName s.names⟩

namespace Footprint

/-- A number of bytes and nothing else. -/
def ofSize (size : Nat) : Footprint := ⟨none, size, [], fun _ => []⟩

/-- Two pieces one after the other. -/
def seq (a b : Footprint) : Footprint :=
  ⟨a.fault.or b.fault, a.size + b.size, a.assigned ++ b.assigned,
    fun s => a.events s ++ b.events (s.after a)⟩

theorem fault_seq {a b : Footprint} (h : (a.seq b).fault = none) :
    a.fault = none ∧ b.fault = none := Option.or_eq_none_iff.1 h

end Footprint

@[simp] theorem Site.after_seq (s : Site) (a b : Footprint) :
    s.after (a.seq b) = (s.after a).after b := by
  simp [Site.after, Footprint.seq, List.foldl_append, Nat.add_assoc]

@[simp] theorem Site.after_ofSize (s : Site) (size : Nat) :
    s.after (.ofSize size) = ⟨s.offset + size, s.names⟩ := rfl

/-- The site behind a piece of code has at least the names in front of it. -/
theorem Site.prefix_after (s : Site) (f : Footprint) : s.names <+: (s.after f).names :=
  prefix_foldl_declareName s.names f.assigned

/-- A piece of code that goes on behind itself. -/
structure Segment extends Footprint where
  lines : Site → List Line
  total_lines : ∀ s, Line.total (lines s) = size

/-- The code of a condition, which goes on at one of two exits. -/
structure JumpSegment extends Footprint where
  lines : Exits → Site → List Line
  total_lines : ∀ exits s, Line.total (lines exits s) = size

instance : Coe Segment Footprint := ⟨Segment.toFootprint⟩

instance : Coe JumpSegment Footprint := ⟨JumpSegment.toFootprint⟩

theorem Segment.offset_after (g : Segment) (s : Site) :
    (s.after g).offset = s.offset + Line.total (g.lines s) := by
  rw [g.total_lines]
  rfl

theorem JumpSegment.offset_after (c : JumpSegment) (exits : Exits) (s : Site) :
    (s.after c).offset = s.offset + Line.total (c.lines exits s) := by
  rw [c.total_lines]
  rfl

namespace Exits

/-- Where a test under a junction jumps to. -/
def away (exits : Exits) : Junction → Nat
  | .and => exits.onFalse
  | .or => exits.onTrue

/-- Where a junction goes on when both its operands fall through. -/
def through (exits : Exits) : Junction → Nat
  | .and => exits.onTrue
  | .or => exits.onFalse

/-- The exits of the left operand of a junction. -/
def left (exits : Exits) (rightStart : Nat) : Junction → Exits
  | .and => ⟨rightStart, exits.onFalse⟩
  | .or => ⟨exits.onTrue, rightStart⟩

end Exits

/-- The jump of a test under a junction: away when the comparison fails under
`and`, away when it holds under `or`. -/
def CmpOp.testOpcode (op : CmpOp) : Junction → Opcode
  | .and => op.negated.jumpOpcode
  | .or => op.jumpOpcode

namespace Segment

/-- No code. -/
def empty : Segment := ⟨.ofSize 0, fun _ => [], fun _ => rfl⟩

/-- One line that is the same everywhere. -/
def line (l : Line) : Segment :=
  ⟨.ofSize l.opcode.length, fun _ => [l], fun _ => Line.total_cons l []⟩

def push (x : Single) : Segment := line ⟨.push, x.bits⟩

def emit (op : Opcode) : Segment := line ⟨op, 0⟩

/-- Two segments one after the other. -/
def seq (a b : Segment) : Segment where
  toFootprint := (a : Footprint).seq b
  lines s := a.lines s ++ b.lines (s.after a)
  total_lines s := by rw [Line.total_append, a.total_lines, b.total_lines]; rfl

/-- Segments one after the other. -/
def all : List Segment → Segment
  | [] => empty
  | a :: as => a.seq (all as)

/-- A read of a field; zero if it is not declared. -/
def read (name : String) : Segment where
  fault := none
  size := 5
  assigned := []
  events s := if name ∈ s.names then [] else [.undeclaredRead name]
  lines s :=
    if name ∈ s.names then [⟨.loadField, (slotFor s.names name).toUInt32⟩]
    else [⟨.push, Single.zero.bits⟩]
  total_lines s := by split <;> rfl

/-- A load or a store of a field, which declares it. -/
def access (op : Opcode) (name : String) : Segment where
  fault := none
  size := op.length
  assigned := [name]
  events _ := []
  lines s := [⟨op, (slotFor s.names name).toUInt32⟩]
  total_lines _ := Line.total_cons _ []

/-- A call of a function; zero if it is not known.  A wrong number of arguments
is a fault that comes before those in the arguments. -/
def call (name : String) (args : List Segment) : Segment :=
  match intrinsic? name with
  | none => { push Single.zero with events := fun _ => [.unknownCall name] }
  | some f =>
    let call := (all args).seq (emit f.opcode)
    { call with
      fault := if args.length ≠ f.arity then some (.arity name f.arity args.length) else call.fault }

/-- The number 1 if a condition holds and 0 if it fails. -/
def truthValue (c : JumpSegment) : Segment where
  toFootprint := (c : Footprint).seq (.ofSize 15)
  lines s :=
    let onTrue := s.offset + c.size
    c.lines ⟨onTrue, onTrue + 10⟩ s
      ++ [⟨.push, Single.one.bits⟩, ⟨.jump, (onTrue + 15).toUInt32⟩, ⟨.push, Single.zero.bits⟩]
  total_lines s := by rw [Line.total_append, c.total_lines]; rfl

/-- A body that runs if a condition holds. -/
def conditional (c : JumpSegment) (body : Segment) : Segment where
  toFootprint := { ((c : Footprint).seq body).seq (.ofSize 5) with
    events := fun s => c.events s ++ body.events (s.after c)
      ++ [.compiledConditional (s.offset + c.size) (s.offset + c.size + body.size + 5)] }
  lines s :=
    let bodyStart := s.offset + c.size
    let stop := bodyStart + body.size + 5
    c.lines ⟨bodyStart, stop⟩ s ++ body.lines (s.after c) ++ [⟨.jump, stop.toUInt32⟩]
  total_lines s := by
    rw [Line.total_append, Line.total_append, c.total_lines, body.total_lines]; rfl

end Segment

theorem Site.after_conditional (s : Site) (c : JumpSegment) (body : Segment) :
    s.after (Segment.conditional c body) =
      ⟨((s.after c).after body).offset + 5, ((s.after c).after body).names⟩ := by
  show s.after (((c : Footprint).seq body).seq (.ofSize 5)) = _
  rw [Site.after_seq, Site.after_seq, Site.after_ofSize]

namespace JumpSegment

/-- The test of two values on the stack. -/
def test (op : CmpOp) (junction : Junction) : JumpSegment where
  toFootprint := .ofSize 5
  lines exits _ := [⟨op.testOpcode junction, (exits.away junction).toUInt32⟩]
  total_lines _ _ := by cases op <;> cases junction <;> rfl

/-- A condition behind other code. -/
def behind (a : Segment) (c : JumpSegment) : JumpSegment where
  toFootprint := (a : Footprint).seq c
  lines exits s := a.lines s ++ c.lines exits (s.after a)
  total_lines exits s := by rw [Line.total_append, a.total_lines, c.total_lines]; rfl

/-- A value tested against zero. -/
def nonzero (value : Segment) (junction : Junction) : JumpSegment :=
  behind (value.seq (Segment.push Single.zero)) (test .ne junction)

/-- Two conditions joined. -/
def branch (junction : Junction) (l r : JumpSegment) : JumpSegment where
  toFootprint := ((l : Footprint).seq r).seq (.ofSize 5)
  lines exits s :=
    l.lines (exits.left (s.offset + l.size) junction) s ++ r.lines exits (s.after l)
      ++ [⟨.jump, (exits.through junction).toUInt32⟩]
  total_lines exits s := by
    rw [Line.total_append, Line.total_append, l.total_lines, r.total_lines]; rfl

theorem fault_branch {l r : JumpSegment} (junction : Junction) (hl : l.fault = none)
    (hr : r.fault = none) : (branch junction l r).fault = none :=
  Option.or_eq_none_iff.2 ⟨Option.or_eq_none_iff.2 ⟨hl, hr⟩, rfl⟩

end JumpSegment

/-- The three layouts of a node. -/
structure Layout where
  statement : Segment
  value : Segment
  condition : Junction → JumpSegment

namespace Layout

/-- A node that is a value. -/
def ofValue (value : Segment) : Layout :=
  ⟨value.seq (.emit .discard), value, .nonzero value⟩

/-- A node that is a statement, with the value it has. -/
def ofStatement (statement value : Segment) : Layout := ⟨statement, value, .nonzero value⟩

/-- A node that is a condition. -/
def ofCondition (condition : Junction → JumpSegment) : Layout :=
  let value := Segment.truthValue (condition .and)
  ⟨value.seq (.emit .discard), value, condition⟩

end Layout

namespace Expr

mutual

/-- The three layouts of a tree. -/
def layout : Expr → Layout
  | block statements =>
    let body := Segment.all ((layoutAll statements).map Layout.statement)
    .ofStatement body (body.seq (.push Single.zero))
  | conditional condition body =>
    let statement := Segment.conditional ((layout condition).condition .and) (layout body).statement
    .ofStatement statement (statement.seq (.push Single.zero))
  | literal x => .ofValue (.push x)
  | ident name => .ofValue (.read name)
  | assign name value =>
    let statement := (layout value).value.seq (.access .storeField name)
    .ofStatement statement (statement.seq (.access .loadField name))
  | arith op lhs rhs => .ofValue (((layout lhs).value.seq (layout rhs).value).seq (.emit op.opcode))
  | call name args => .ofValue (.call name ((layoutAll args).map Layout.value))
  | cmp op lhs rhs => .ofCondition fun junction =>
    .behind ((layout lhs).value.seq (layout rhs).value) (.test op junction)
  | or lhs rhs => .ofCondition fun _ =>
    .branch .or ((layout lhs).condition .or) ((layout rhs).condition .or)
  | and lhs rhs => .ofCondition fun _ =>
    .branch .and ((layout lhs).condition .and) ((layout rhs).condition .and)

/-- The layouts of a row of trees. -/
def layoutAll : List Expr → List Layout
  | [] => []
  | e :: es => layout e :: layoutAll es

end

/-- The layout of a whole program: a statement and a return. -/
def program (e : Expr) : Segment := e.layout.statement.seq (.emit .ret)

end Expr

/-! ### One induction for all properties of layouts -/

/-- A function takes its arguments off the stack and leaves its value. -/
theorem Intrinsic.effect {name : String} {f : Intrinsic} (h : intrinsic? name = some f) :
    f.opcode.pops = f.arity ∧ f.opcode.pushes = 1 ∧ f.opcode.operandKind = .none := by
  unfold intrinsic? at h
  split at h <;> cases h <;> exact ⟨rfl, rfl, rfl⟩

namespace Layout

/-- A property of segments and one of conditions that pass through all the ways
in which layouts are put together. -/
structure Rules (P : Segment → Prop) (Q : JumpSegment → Prop) : Prop where
  empty : P .empty
  push : ∀ x, P (.push x)
  emit : ∀ {op : Opcode}, op.operandKind = .none → P (.emit op)
  read : ∀ name, P (.read name)
  access : ∀ {op : Opcode} name, op.operandKind = .field → P (.access op name)
  seq : ∀ {a b}, P a → P b → P (a.seq b)
  unknownCall : ∀ name, P { Segment.push Single.zero with events := fun _ => [.unknownCall name] }
  faulty : ∀ {g} (fault : Option CompileError), P g → P { g with fault }
  truthValue : ∀ {c}, Q c → P (.truthValue c)
  conditional : ∀ {c g}, Q c → P g → P (.conditional c g)
  test : ∀ op junction, Q (.test op junction)
  behind : ∀ {a c}, P a → Q c → Q (.behind a c)
  branch : ∀ junction {l r}, Q l → Q r → Q (.branch junction l r)

/-- All three layouts of a node have the property. -/
structure All (P : Segment → Prop) (Q : JumpSegment → Prop) (l : Layout) : Prop where
  statement : P l.statement
  value : P l.value
  condition : ∀ junction, Q (l.condition junction)

namespace Rules

variable {P : Segment → Prop} {Q : JumpSegment → Prop} (h : Rules P Q)

include h

theorem nonzero {value : Segment} (hv : P value) (junction : Junction) :
    Q (.nonzero value junction) :=
  h.behind (h.seq hv (h.push _)) (h.test .ne junction)

theorem ofValue {value : Segment} (hv : P value) : (Layout.ofValue value).All P Q where
  statement := h.seq hv (h.emit rfl)
  value := hv
  condition := h.nonzero hv

theorem ofStatement {statement value : Segment} (hs : P statement) (hv : P value) :
    (Layout.ofStatement statement value).All P Q where
  statement := hs
  value := hv
  condition := h.nonzero hv

theorem ofCondition {condition : Junction → JumpSegment} (hc : ∀ junction, Q (condition junction)) :
    (Layout.ofCondition condition).All P Q where
  statement := h.seq (h.truthValue (hc .and)) (h.emit rfl)
  value := h.truthValue (hc .and)
  condition := hc

theorem all {gs : List Segment} (hgs : ∀ g ∈ gs, P g) : P (Segment.all gs) := by
  induction gs with
  | nil => exact h.empty
  | cons g gs ih =>
    rw [List.forall_mem_cons] at hgs
    exact h.seq hgs.1 (ih hgs.2)

theorem call (name : String) {args : List Segment} (hargs : ∀ g ∈ args, P g) :
    P (.call name args) := by
  unfold Segment.call
  cases hf : intrinsic? name with
  | none => exact h.unknownCall name
  | some f => exact h.faulty _ (h.seq (h.all hargs) (h.emit (Intrinsic.effect hf).2.2))

end Rules
end Layout

namespace Expr

variable {P : Segment → Prop} {Q : JumpSegment → Prop}

mutual

/-- **What passes through the rules holds of the layout of every tree.** -/
theorem layout_all (h : Layout.Rules P Q) : ∀ e : Expr, e.layout.All P Q
  | block statements => by
    have hs : P (Segment.all ((layoutAll statements).map Layout.statement)) :=
      h.all (List.forall_mem_map.2 fun l hl => (layoutAll_all h statements l hl).statement)
    exact h.ofStatement hs (h.seq hs (h.push _))
  | conditional condition body => by
    have hs := h.conditional ((layout_all h condition).condition .and) (layout_all h body).statement
    exact h.ofStatement hs (h.seq hs (h.push _))
  | literal x => h.ofValue (h.push x)
  | ident name => h.ofValue (h.read name)
  | assign name value => by
    have hstore : P (.access .storeField name) := h.access name rfl
    have hs := h.seq (layout_all h value).value hstore
    exact h.ofStatement hs (h.seq hs (h.access name rfl))
  | arith op lhs rhs => by
    have hkind : op.opcode.operandKind = .none := by cases op <;> rfl
    exact h.ofValue (h.seq (h.seq (layout_all h lhs).value (layout_all h rhs).value) (h.emit hkind))
  | call name args => h.ofValue (h.call name
      (List.forall_mem_map.2 fun l hl => (layoutAll_all h args l hl).value))
  | cmp op lhs rhs => h.ofCondition fun junction =>
      h.behind (h.seq (layout_all h lhs).value (layout_all h rhs).value) (h.test op junction)
  | or lhs rhs => h.ofCondition fun _ =>
      h.branch .or ((layout_all h lhs).condition .or) ((layout_all h rhs).condition .or)
  | and lhs rhs => h.ofCondition fun _ =>
      h.branch .and ((layout_all h lhs).condition .and) ((layout_all h rhs).condition .and)

theorem layoutAll_all (h : Layout.Rules P Q) : ∀ es : List Expr, ∀ l ∈ layoutAll es, l.All P Q
  | [], _, hl => absurd hl List.not_mem_nil
  | e :: es, l, hl => by
    rcases List.mem_cons.1 hl with rfl | hl
    · exact layout_all h e
    · exact layoutAll_all h es l hl

end

theorem program_all (h : Layout.Rules P Q) (e : Expr) : P e.program :=
  h.seq (layout_all h e).statement (h.emit rfl)

end Expr
end FieldScript
