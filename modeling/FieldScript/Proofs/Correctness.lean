/-
# Compiled code does what the tree means

The layout of a node is right if its three segments do what the node means: the
statement leaves the node's world, the value also leaves its value on the stack,
and the condition goes on where it should.  All three declare the names that the
node assigns.  A segment with a fault is never written, so nothing is said of it.

The proof goes over the tree, one case per kind of node, and each case puts
together the rules for its segments.
-/

import FieldScript.Proofs.Backpatching
import FieldScript.Proofs.Simulation

namespace FieldScript

/-- A segment changes the world and leaves the stack. -/
structure Segment.Changes (g : Segment) (as : List String) (f : World → World) : Prop where
  names : SameNames g.assigned as
  runs : g.fault = none → ∀ {image site stack w}, g.Runs image site stack w stack (f w)

/-- A segment changes the world and leaves a value on the stack. -/
structure Segment.Computes (g : Segment) (as : List String) (f : World → Single × World) :
    Prop where
  names : SameNames g.assigned as
  runs : g.fault = none → ∀ {image site stack w},
    g.Runs image site stack w ((f w).1 :: stack) (f w).2

/-- A condition changes the world and goes on where it should. -/
structure JumpSegment.Decides (c : JumpSegment) (junction : Junction) (as : List String)
    (f : World → Bool × World) : Prop where
  names : SameNames c.assigned as
  lands : c.fault = none → ∀ {image exits site stack w},
    c.Lands junction image exits site stack w (f w).1 stack (f w).2

/-- The three layouts of a node do what the node means. -/
structure Layout.Implements (l : Layout) (as : List String) (m : Meaning) : Prop where
  statement : l.statement.Changes as fun w => (m.value w).2
  value : l.value.Computes as m.value
  condition : ∀ junction, (l.condition junction).Decides junction as (m.condition junction)

section Pieces

variable {g : Segment} {as bs : List String} {f : World → Single × World}

theorem Segment.Computes.push (x : Single) : (Segment.push x).Computes [] fun w => (x, w) :=
  ⟨.refl [], fun _ => .push x⟩

theorem Segment.Computes.read (name : String) :
    (Segment.read name).Computes [] fun w => (w.read name, w) :=
  ⟨.refl [], fun _ => .read name⟩

theorem Segment.Computes.discard (h : g.Computes as f) :
    (g.seq (.emit .discard)).Changes as fun w => (f w).2 where
  names := h.names.append_nil
  runs hfault := (h.runs (Footprint.fault_seq hfault).1).seq (.discard _)

theorem Segment.Changes.thenZero {f : World → World} (h : g.Changes as f) :
    (g.seq (.push Single.zero)).Computes as fun w => (Single.zero, f w) where
  names := h.names.append_nil
  runs hfault := (h.runs (Footprint.fault_seq hfault).1).seq (.push _)

theorem Segment.Computes.store (h : g.Computes as f) (name : String) :
    (g.seq (.access .storeField name)).Changes (as ++ [name]) fun w => (f w).2.write name (f w).1 where
  names := h.names.append (.refl [name])
  runs hfault := (h.runs (Footprint.fault_seq hfault).1).seq (.store name _)

/-- An assignment gives its value back by reading the field. -/
theorem Segment.Computes.storeLoad (h : g.Computes as f) (name : String) :
    ((g.seq (.access .storeField name)).seq (.access .loadField name)).Computes (as ++ [name])
      fun w => ((f w).1, (f w).2.write name (f w).1) where
  names := (h.store name).names.again
  runs hfault image site stack w := by
    have hmem : name ∈ (site.after (g.seq (.access .storeField name))).names := by
      rw [Segment.seq, Site.after_seq]
      exact mem_declareName _ name
    have hload : ((f w).2.write name (f w).1).read name = (f w).1 := Field.read_write name _ _
    have hrun : Segment.Runs _ image site stack w _ _ :=
      ((h.store name).runs (Footprint.fault_seq hfault).1).seq (.reload hmem)
    rwa [hload] at hrun

theorem Segment.Computes.arith {h : Segment} {f' : World → Single × World} (op : ArithOp)
    (hg : g.Computes as f) (hh : h.Computes bs f') :
    ((g.seq h).seq (.emit op.opcode)).Computes (as ++ bs)
      fun w => (op.apply (f w).1 (f' (f w).2).1, (f' (f w).2).2) where
  names := (hg.names.append hh.names).append_nil
  runs hfault :=
    have hfault := Footprint.fault_seq (Footprint.fault_seq hfault).1
    ((hg.runs hfault.1).seq (hh.runs hfault.2)).seq (.arith op _ _)

theorem Segment.Computes.truthValue {c : JumpSegment} {f : World → Bool × World}
    (h : c.Decides .and as f) :
    (Segment.truthValue c).Computes as
      fun w => (if (f w).1 then Single.one else Single.zero, (f w).2) where
  names := h.names.append_nil
  runs hfault :=
    .truthValue fun _ => h.lands (Footprint.fault_seq hfault).1

theorem Segment.Changes.conditional {c : JumpSegment} {f : World → Bool × World}
    {f' : World → World} (hc : c.Decides .and as f) (hg : g.Changes bs f') :
    (Segment.conditional c g).Changes (as ++ bs)
      fun w => if (f w).1 then f' (f w).2 else (f w).2.declare bs where
  names := (hc.names.append hg.names).append_nil
  runs hfault :=
    have hfault := Footprint.fault_seq (Footprint.fault_seq hfault).1
    .conditional (fun _ => hc.lands hfault.1)
      (hg.runs hfault.2) hg.names

theorem JumpSegment.Decides.congr {c : JumpSegment} {junction : Junction}
    {f f' : World → Bool × World} (h : c.Decides junction as f) (heq : ∀ w, f w = f' w) :
    c.Decides junction as f' := funext heq ▸ h

theorem JumpSegment.Decides.nonzero (h : g.Computes as f) (junction : Junction) :
    (JumpSegment.nonzero g junction).Decides junction as
      fun w => (!(f w).1.numEq Single.zero, (f w).2) where
  names := h.names.append_nil.append_nil
  lands hfault image exits site stack w := by
    have hfault := Footprint.fault_seq (Footprint.fault_seq hfault).1
    have hjudge : CmpOp.ne.judge junction (f w).1 Single.zero = !(f w).1.numEq Single.zero := by
      cases junction <;> rfl
    rw [← hjudge]
    exact .behind ((h.runs hfault.1).seq (.push _)) (.test .ne junction _ _)

theorem JumpSegment.Decides.cmp {h : Segment} {f' : World → Single × World} (op : CmpOp)
    (junction : Junction) (hg : g.Computes as f) (hh : h.Computes bs f') :
    (JumpSegment.behind (g.seq h) (.test op junction)).Decides junction (as ++ bs)
      fun w => (op.judge junction (f w).1 (f' (f w).2).1, (f' (f w).2).2) where
  names := (hg.names.append hh.names).append_nil
  lands hfault :=
    have hfault := Footprint.fault_seq (Footprint.fault_seq hfault).1
    .behind ((hg.runs hfault.1).seq (hh.runs hfault.2)) (.test op junction _ _)

/-- The right operand of a junction counts if the left one does not decide. -/
theorem JumpSegment.Decides.branch {l r : JumpSegment} {f f' : World → Bool × World}
    {junction : Junction} (hl : l.Decides junction as f) (hr : r.Decides junction bs f')
    (outer : Junction) :
    (JumpSegment.branch junction l r).Decides outer (as ++ bs) fun w =>
      if (f w).1 = decide (junction = .and) then f' (f w).2
      else ((f w).1, (f w).2.declare bs) where
  names := (hl.names.append hr.names).append_nil
  lands hfault :=
    have hfault := Footprint.fault_seq (Footprint.fault_seq hfault).1
    .branch (fun _ => hl.lands hfault.1) (hr.lands hfault.2) hr.names

end Pieces

/-! ### Rows of nodes -/

/-- The layouts of a row of nodes do what the nodes mean. -/
inductive Layout.ImplementAll : List Layout → List String → List Meaning → Prop
  | nil : ImplementAll [] [] []
  | cons {l : Layout} {ls : List Layout} {as bs : List String} {m : Meaning} {ms : List Meaning}
      (head : l.Implements as m) (tail : ImplementAll ls bs ms) :
      ImplementAll (l :: ls) (as ++ bs) (m :: ms)

namespace Layout

theorem Implements.ofValue {value : Segment} {as : List String} {f : World → Single × World}
    (h : value.Computes as f) : (Layout.ofValue value).Implements as (Meaning.ofValue f) where
  statement := h.discard
  value := h
  condition junction := .nonzero h junction

theorem Implements.ofStatement {statement value : Segment} {as : List String}
    {f : World → Single × World} (hs : statement.Changes as fun w => (f w).2)
    (hv : value.Computes as f) :
    (Layout.ofStatement statement value).Implements as (Meaning.ofValue f) where
  statement := hs
  value := hv
  condition junction := .nonzero hv junction

theorem Implements.ofCondition {condition : Junction → JumpSegment} {as : List String}
    {f : Junction → World → Bool × World}
    (h : ∀ junction, (condition junction).Decides junction as (f junction)) :
    (Layout.ofCondition condition).Implements as (Meaning.ofCondition f) where
  statement := (Segment.Computes.truthValue (h .and)).discard
  value := .truthValue (h .and)
  condition := h

namespace ImplementAll

variable {ls : List Layout} {as : List String} {ms : List Meaning}

theorem statements (h : ImplementAll ls as ms) :
    (Segment.all (ls.map Layout.statement)).Changes as (Meaning.runAll ms) := by
  induction h with
  | nil => exact ⟨.refl [], fun _ => .empty⟩
  | cons head tail ih =>
    refine ⟨head.statement.names.append ih.names, fun hfault {image site stack w} => ?_⟩
    have hfault := Footprint.fault_seq hfault
    exact (head.statement.runs hfault.1).seq (ih.runs hfault.2)

theorem length_values (h : ImplementAll ls as ms) (w : World) :
    (Meaning.values ms w).1.length = ls.length := by
  induction h generalizing w with
  | nil => rfl
  | cons head tail ih => rw [Meaning.values, List.length_cons, List.length_cons, ih]

theorem sameNames_values (h : ImplementAll ls as ms) :
    SameNames (Segment.all (ls.map Layout.value)).assigned as := by
  induction h with
  | nil => exact .refl []
  | cons head tail ih => exact head.value.names.append ih

theorem values (h : ImplementAll ls as ms) (hfault : (Segment.all (ls.map Layout.value)).fault = none)
    {image : Image} {site : Site} {stack : List Single} {w : World} :
    (Segment.all (ls.map Layout.value)).Runs image site stack w
      ((Meaning.values ms w).1.reverse ++ stack) (Meaning.values ms w).2 := by
  induction h generalizing site stack w with
  | nil => exact .empty
  | cons head tail ih =>
    have hfault := Footprint.fault_seq hfault
    rw [Meaning.values, List.reverse_cons, List.append_assoc, List.singleton_append]
    exact (head.value.runs hfault.1).seq (ih hfault.2)

end ImplementAll

/-- The call of a known function.  A segment of a call without a fault has the
right number of arguments. -/
theorem ImplementAll.call {ls : List Layout} {as : List String} {ms : List Meaning}
    (h : ImplementAll ls as ms) (name : String) :
    (Segment.call name (ls.map Layout.value)).Computes
      (if (Builtin.named? name).isSome then as else []) fun w =>
        match Builtin.named? name with
        | none => (Single.zero, w)
        | some f =>
          let (xs, w) := Meaning.values ms w
          let (x, generator) := f xs w.generator
          (x, { w with generator }) := by
  rcases Intrinsic.performs_of_name name with ⟨hf, hb⟩ | ⟨f, builtin, hf, hb, hperforms⟩
  · rw [Segment.call, hf, hb]
    exact ⟨.refl [], fun _ => (Segment.Runs.push Single.zero).congr rfl rfl⟩
  · rw [Segment.call, hf, hb]
    refine ⟨h.sameNames_values.append_nil, fun hfault {image site stack w} => ?_⟩
    dsimp only at hfault
    split at hfault
    · simp at hfault
    · rename_i harity
      have hlength : (Meaning.values ms w).1.length = f.arity := by
        rw [h.length_values, ← List.length_map Layout.value]
        exact Decidable.not_not.1 harity
      have hcall : Segment.Runs _ image site stack w _ _ :=
        (h.values (Footprint.fault_seq hfault).1).seq (.intrinsic hperforms hlength)
      exact hcall.congr rfl rfl

end Layout

namespace Expr

mutual

/-- **The layout of a tree does what the tree means.** -/
theorem implements : ∀ e : Expr, e.layout.Implements e.assigned e.meaning
  | block statements =>
    have hs := (implementAll statements).statements
    .ofStatement hs hs.thenZero
  | conditional condition body =>
    have hs := Segment.Changes.conditional ((implements condition).condition .and)
      (implements body).statement
    .ofStatement hs hs.thenZero
  | literal x => .ofValue (.push x)
  | ident name => .ofValue (.read name)
  | assign name value =>
    have hv := (implements value).value
    .ofStatement (hv.store name) (hv.storeLoad name)
  | arith op lhs rhs => .ofValue ((implements lhs).value.arith op (implements rhs).value)
  | call name args => .ofValue ((implementAll args).call name)
  | cmp op lhs rhs => .ofCondition fun junction =>
    .cmp op junction (implements lhs).value (implements rhs).value
  | or lhs rhs => .ofCondition fun junction => by
    have h := ((implements lhs).condition .or).branch ((implements rhs).condition .or) junction
    refine h.congr fun w => ?_
    rcases lhs.meaning.condition .or w with ⟨_ | _, w⟩ <;> rfl
  | and lhs rhs => .ofCondition fun junction => by
    have h := ((implements lhs).condition .and).branch ((implements rhs).condition .and) junction
    refine h.congr fun w => ?_
    rcases lhs.meaning.condition .and w with ⟨_ | _, w⟩ <;> rfl

/-- The layouts of a row of trees do what the trees mean. -/
theorem implementAll : ∀ es : List Expr,
    Layout.ImplementAll (layoutAll es) (assignedAll es) (meaningAll es)
  | [] => .nil
  | e :: es => .cons (implements e) (implementAll es)

end

/-! ### Whole programs -/

/-- A laid out program as an image. -/
def image (e : Expr) (c : Chunk) (hsize : (e.laidOut c).code.size < UInt32.size)
    (hfields : (e.laidOut c).fields.size ≤ UInt32.size) : Image :=
  ⟨(e.laidOut c).code, (e.laidOut c).names, hsize, by
    rwa [Chunk.names, Field.length_names, Array.length_toList]⟩

section Program

variable (e : Expr) {c : Chunk} (hcode : c.code = #[])
  (hsize : (e.laidOut c).code.size < UInt32.size)
  (hfields : (e.laidOut c).fields.size ≤ UInt32.size)

include hcode hsize hfields

theorem program_in_image : e.program.In (e.image c hsize hfields) ⟨0, c.names⟩ := by
  refine ⟨?_, ?_⟩
  · have hencode : (e.laidOut c).code.toList =
        [] ++ Line.encode (e.program.lines ⟨0, c.names⟩) ++ [] := by
      rw [List.nil_append, List.append_nil, e.toList_code_laidOut hcode]
    exact Line.holds_encode hencode
  · rw [program, Segment.seq, Site.after_seq]
    exact (e.names_laidOut c) ▸ List.prefix_refl _

/-- **A laid out program leaves the world that its tree leaves,** with an empty
stack. -/
theorem run_laidOut (hfault : e.program.fault = none) (m : Machine) :
    let w := e.run ⟨c.fields.toList, m.generator⟩
    (m.run (e.laidOut c)).ending = .returned ∧
      (m.run (e.laidOut c)).machine = ⟨[], w.generator⟩ ∧
      (m.run (e.laidOut c)).chunk = { e.laidOut c with fields := w.fields.toArray } := by
  intro w
  obtain ⟨hinbody, hinret⟩ := (e.program_in_image hcode hsize hfields).of_seq
  have hshows : Shows (e.image c hsize hfields) ⟨0, c.names⟩ [] ⟨c.fields.toList, m.generator⟩
      ⟨0, [], (e.laidOut c).fields, m.generator⟩ :=
    ⟨rfl, rfl, rfl, rfl, rfl, Field.Backs.of_declareAll _ _⟩
  obtain ⟨t, hsteps, ht⟩ :=
    e.implements.statement.runs (Footprint.fault_seq hfault).1 hinbody _ hshows
  have hret : Instr.decodeAt (e.laidOut c).code t.offset = .ok (Line.instr t.offset ⟨.ret, 0⟩) :=
    ht.decodeAt hinret.holds
  obtain ⟨n, log, hn, hrun⟩ := hsteps.run_eq #[.runStart (e.laidOut c).size (e.laidOut c).fields.size]
  -- there are no more steps than bytes, so the bound on the steps is not met
  have hlimit : Machine.stepLimit = Machine.stepLimit - (n + 1) + 1 + n := by
    have hlt := Instr.lt_size_of_decodeAt hret
    have hmax : UInt32.size < Machine.stepLimit := by decide
    dsimp only at hn
    omega
  have hend := hrun (Machine.stepLimit - (n + 1) + 1)
  rw [← hlimit, show (e.image c hsize hfields).code = (e.laidOut c).code from rfl,
    RunState.run_ret hret] at hend
  have hfields : t.fields.toList = w.fields := by
    refine ht.backs.eq_of_names ?_
    rw [ht.table, ht.names]
    exact e.names_laidOut c
  obtain ⟨hending, hmachine, hchunk⟩ := Machine.run_eq hend
  refine ⟨hending, ?_, ?_⟩
  · rw [hmachine, ht.stack, ht.generator]
    rfl
  · rw [hchunk, ← hfields]

end Program

/-- **Compiler correctness.**  A program compiled into a chunk without code runs
to its return.  It leaves an empty stack, and the fields and the generator that
the evaluator leaves when it starts with the fields of that chunk.  The code and
the fields have to be in the range of a word. -/
theorem run_compileInto {e : Expr} {c f : Chunk} (hcode : c.code = #[])
    (hresult : (e.compileInto c).result = .ok f) (hsize : f.code.size < UInt32.size)
    (hfields : f.fields.size ≤ UInt32.size) (m : Machine) :
    let w := e.run ⟨c.fields.toList, m.generator⟩
    (m.run f).ending = .returned ∧ (m.run f).machine = ⟨[], w.generator⟩ ∧
      (m.run f).chunk = { f with fields := w.fields.toArray } := by
  obtain ⟨hfault, rfl⟩ := eq_laidOut_of_result hresult
  exact e.run_laidOut hcode hsize hfields hfault m

/-- `a = 1; if (a <= 1 && (a > 1 || (b = a) == 1)) hit = 1 - a;`, which assigns
inside its condition. -/
def assigningCondition : Expr :=
  block [assign "a" (literal Single.one),
    conditional
      (and (cmp .le (ident "a") (literal Single.one))
        (or (cmp .gt (ident "a") (literal Single.one))
          (cmp .eq (assign "b" (ident "a")) (literal Single.one))))
      (assign "hit" (arith .sub (literal Single.one) (ident "a")))]

theorem run_assigningCondition :
    let f := assigningCondition.laidOut Chunk.empty
    (assigningCondition.compileInto Chunk.empty).result = .ok f ∧
      f.code.size < UInt32.size ∧ f.fields.size ≤ UInt32.size ∧
      (Machine.new.run f).ending = .returned ∧ (Machine.new.run f).machine = Machine.new ∧
      (Machine.new.run f).chunk.fields =
        #[⟨Chunk.positionName, Single.zero⟩, ⟨"a", Single.one⟩, ⟨"b", Single.one⟩,
          ⟨"hit", Single.zero⟩] := by
  have hresult : (assigningCondition.compileInto Chunk.empty).result =
      .ok (assigningCondition.laidOut Chunk.empty) := by
    rw [result_compileInto]
    rfl
  obtain ⟨hending, hmachine, hchunk⟩ :=
    run_compileInto rfl hresult (by decide) (by decide) Machine.new
  exact ⟨hresult, by decide, by decide, hending, hmachine, congrArg Chunk.fields hchunk⟩

end Expr
end FieldScript
