/-
# The first call with a wrong number of arguments

There is one reason for which a tree does not compile: a function that is known
is called with a wrong number of arguments.  The arguments of a function that is
not known are not compiled, so nothing in them counts.

Which of several such calls is reported is said of their places in the tree.  A
place is a path from the root, and paths are in *pre-order* (`Path.Precedes`): a
tree comes before the trees in it, and those come from left to right.

The three layouts of a node have one fault (`fault_condition`,
`fault_statement`), which is its own or the first one among its operands
(`fault_eq_findSome?`, `fault_call`).  An operand that has the first fault among
its siblings has the first one in the whole tree (`FirstMiscall.of_operand`), so
by induction on the tree the fault is that of the first miscall.
-/

import FieldScript.Proofs.Backpatching

namespace FieldScript
namespace Expr

/-! ### Places in a tree -/

/-- The trees directly in a tree, from left to right. -/
def operands : Expr → List Expr
  | block statements => statements
  | conditional condition body => [condition, body]
  | literal _ => []
  | ident _ => []
  | assign _ value => [value]
  | arith _ lhs rhs => [lhs, rhs]
  | call _ args => args
  | cmp _ lhs rhs => [lhs, rhs]
  | or lhs rhs => [lhs, rhs]
  | and lhs rhs => [lhs, rhs]

/-- A way down from the root of a tree: the numbers of the operands, counted from
zero. -/
abbrev Path := List Nat

/-- The tree at a path. -/
def at? : Expr → Path → Option Expr
  | e, [] => some e
  | e, k :: path => e.operands[k]?.bind fun operand => at? operand path

/-- The order of paths in which a tree comes before the trees in it, and those
come from left to right. -/
inductive Path.Precedes : Path → Path → Prop
  | above {k : Nat} {path : Path} : Precedes [] (k :: path)
  | left {j k : Nat} {path path' : Path} (h : j < k) : Precedes (j :: path) (k :: path')
  | inside {k : Nat} {path path' : Path} (h : Precedes path path') :
      Precedes (k :: path) (k :: path')

theorem Path.precedes_trichotomy (path path' : Path) :
    path.Precedes path' ∨ path = path' ∨ path'.Precedes path := by
  induction path generalizing path' with
  | nil =>
    cases path' with
    | nil => exact .inr (.inl rfl)
    | cons k path' => exact .inl .above
  | cons j path ih =>
    cases path' with
    | nil => exact .inr (.inr .above)
    | cons k path' =>
      obtain hlt | rfl | hlt := Nat.lt_trichotomy j k
      · exact .inl (.left hlt)
      · obtain h | rfl | h := ih path'
        · exact .inl (.inside h)
        · exact .inr (.inl rfl)
        · exact .inr (.inr (.inside h))
      · exact .inr (.inr (.left hlt))

theorem sizeOf_lt_of_mem_operands {e operand : Expr} (h : operand ∈ e.operands) :
    sizeOf operand < sizeOf e := by
  cases e with
  | block statements | call name statements =>
    have hlt : sizeOf operand < sizeOf statements := List.sizeOf_lt_of_mem h
    simp only [block.sizeOf_spec, call.sizeOf_spec]
    omega
  | literal | ident => exact absurd h List.not_mem_nil
  | assign name value =>
    obtain rfl := List.mem_singleton.1 h
    simp only [assign.sizeOf_spec]
    omega
  | conditional lhs rhs | arith _ lhs rhs | cmp _ lhs rhs | or lhs rhs | and lhs rhs =>
    simp only [operands, List.mem_cons, List.not_mem_nil, or_false] at h
    simp only [conditional.sizeOf_spec, arith.sizeOf_spec, cmp.sizeOf_spec, or.sizeOf_spec,
      and.sizeOf_spec]
    obtain rfl | rfl := h
    · omega
    · omega

/-- What holds of a tree if it holds of its operands holds of every tree. -/
theorem induction_operands {P : Expr → Prop} (h : ∀ e, (∀ operand ∈ e.operands, P operand) → P e)
    (e : Expr) : P e :=
  h e fun operand hmem => by
    have := sizeOf_lt_of_mem_operands hmem
    exact induction_operands h operand
termination_by sizeOf e

/-! ### Miscalls -/

/-- A known function is called with a wrong number of arguments at a path, and no
call of an unknown function stands above. -/
structure Miscalled (e : Expr) (path : Path) (name : String) (f : Intrinsic) (args : List Expr) :
    Prop where
  call : e.at? path = some (.call name args)
  known : intrinsic? name = some f
  arity : args.length ≠ f.arity
  reached : ∀ above k below other others, path = above ++ k :: below →
    e.at? above = some (.call other others) → intrinsic? other ≠ none

/-- The fault names the first miscall in pre-order. -/
def FirstMiscall (e : Expr) (fault : CompileError) : Prop :=
  ∃ path name f args, e.Miscalled path name f args ∧
    (∀ path' name' f' args', path'.Precedes path → ¬e.Miscalled path' name' f' args') ∧
    fault = .arity name f.arity args.length

/-- There is no miscall in the tree. -/
def Clean (e : Expr) : Prop := ∀ path name f args, ¬e.Miscalled path name f args

/-- The operands of the tree are compiled, since it is no call of an unknown
function. -/
def Enters (e : Expr) : Prop := ∀ name args, e = .call name args → intrinsic? name ≠ none

/-- A miscall is the tree itself or stands in an operand. -/
theorem miscalled_nil_iff {e : Expr} {name : String} {f : Intrinsic} {args : List Expr} :
    e.Miscalled [] name f args ↔
      e = .call name args ∧ intrinsic? name = some f ∧ args.length ≠ f.arity := by
  constructor
  · intro h
    exact ⟨Option.some.inj h.call, h.known, h.arity⟩
  · rintro ⟨rfl, hknown, harity⟩
    refine ⟨rfl, hknown, harity, fun above k below other others hpath => ?_⟩
    cases above <;> cases hpath

theorem miscalled_cons_iff {e : Expr} {k : Nat} {path : Path} {name : String} {f : Intrinsic}
    {args : List Expr} :
    e.Miscalled (k :: path) name f args ↔
      e.Enters ∧ ∃ operand, e.operands[k]? = some operand ∧ operand.Miscalled path name f args := by
  constructor
  · intro h
    obtain ⟨operand, hoperand, hcall⟩ := Option.bind_eq_some_iff.1 h.call
    refine ⟨?_, operand, hoperand, hcall, h.known, h.arity, ?_⟩
    · rintro other others rfl
      exact h.reached [] k path other others rfl rfl
    · rintro above j below other others rfl hat
      refine h.reached (k :: above) j below other others rfl ?_
      rw [at?, hoperand]
      exact hat
  · rintro ⟨henters, operand, hoperand, h⟩
    refine ⟨by rw [at?, hoperand]; exact h.call, h.known, h.arity, ?_⟩
    intro above j below other others hpath hat
    cases above with
    | nil => exact henters other others (Option.some.inj hat)
    | cons i above =>
      obtain ⟨rfl, rfl⟩ := List.cons.inj hpath
      rw [at?, hoperand] at hat
      exact h.reached above j below other others rfl hat

theorem Miscalled.eq {e : Expr} {path : Path} {name name' : String} {f f' : Intrinsic}
    {args args' : List Expr} (h : e.Miscalled path name f args)
    (h' : e.Miscalled path name' f' args') : name = name' ∧ f = f' ∧ args = args' := by
  have hcall := Option.some.inj (h.call.symm.trans h'.call)
  injection hcall with hname hargs
  subst hname
  exact ⟨rfl, Option.some.inj (h.known.symm.trans h'.known), hargs⟩

/-- Only one fault names the first miscall. -/
theorem FirstMiscall.eq {e : Expr} {fault fault' : CompileError} (h : e.FirstMiscall fault)
    (h' : e.FirstMiscall fault') : fault = fault' := by
  obtain ⟨path, name, f, args, hmiscalled, hfirst, rfl⟩ := h
  obtain ⟨path', name', f', args', hmiscalled', hfirst', rfl⟩ := h'
  obtain hbefore | rfl | hbefore := path.precedes_trichotomy path'
  · exact absurd hmiscalled (hfirst' path name f args hbefore)
  · obtain ⟨rfl, rfl, rfl⟩ := hmiscalled.eq hmiscalled'
    rfl
  · exact absurd hmiscalled' (hfirst path' name' f' args' hbefore)

/-- The tree itself is no miscall. -/
def Proper (e : Expr) : Prop := ∀ name f args, ¬e.Miscalled [] name f args

/-- **The first miscall of a tree stands in the first operand that has one.** -/
theorem FirstMiscall.of_operand {e operand : Expr} {front back : List Expr} {fault : CompileError}
    (hproper : e.Proper) (henters : e.Enters) (hoperands : e.operands = front ++ operand :: back)
    (hfront : ∀ other ∈ front, other.Clean) (h : operand.FirstMiscall fault) :
    e.FirstMiscall fault := by
  obtain ⟨path, name, f, args, hmiscalled, hfirst, rfl⟩ := h
  have hat : e.operands[front.length]? = some operand := by
    rw [hoperands, List.getElem?_append_right (Nat.le_refl _), Nat.sub_self]
    rfl
  refine ⟨front.length :: path, name, f, args, miscalled_cons_iff.2 ⟨henters, operand, hat,
    hmiscalled⟩, ?_, rfl⟩
  intro path' name' f' args' hbefore hmiscalled'
  cases hbefore with
  | above => exact hproper name' f' args' hmiscalled'
  | @left j _ path' _ hlt =>
    obtain ⟨-, other, hother, hmiscalled'⟩ := miscalled_cons_iff.1 hmiscalled'
    rw [hoperands, List.getElem?_append_left hlt] at hother
    exact hfront other (List.mem_of_getElem? hother) path' name' f' args' hmiscalled'
  | @inside _ path' _ hbefore =>
    obtain ⟨-, other, hother, hmiscalled'⟩ := miscalled_cons_iff.1 hmiscalled'
    obtain rfl : operand = other := Option.some.inj (hat.symm.trans hother)
    exact hfirst path' name' f' args' hbefore hmiscalled'

theorem Clean.of_operands {e : Expr} (hproper : e.Proper)
    (h : e.Enters → ∀ operand ∈ e.operands, operand.Clean) : e.Clean := by
  intro path name f args hmiscalled
  cases path with
  | nil => exact hproper name f args hmiscalled
  | cons k path =>
    obtain ⟨henters, operand, hoperand, hmiscalled⟩ := miscalled_cons_iff.1 hmiscalled
    exact h henters operand (List.mem_of_getElem? hoperand) path name f args hmiscalled

/-! ### Faults of layouts -/

/-- The first fault in a tree. -/
def fault (e : Expr) : Option CompileError := e.layout.value.fault

/-- The first fault of segments one after the other. -/
theorem fault_all (way : Layout → Segment) (hway : ∀ e : Expr, (way e.layout).fault = e.fault)
    (es : List Expr) : (Segment.all ((layoutAll es).map way)).fault = es.findSome? fault := by
  induction es with
  | nil => rfl
  | cons e es ih =>
    rw [layoutAll, List.map_cons, List.findSome?_cons, ← ih, ← hway e]
    show (way e.layout).fault.or _ = _
    cases (way e.layout).fault <;> rfl

/-- A condition has the faults of its value, under whatever junction. -/
theorem fault_condition (e : Expr) (junction : Junction) :
    (e.layout.condition junction).fault = e.fault := by
  cases e <;> simp [fault, layout, Layout.ofValue, Layout.ofStatement, Layout.ofCondition,
    JumpSegment.nonzero, JumpSegment.behind, JumpSegment.test, JumpSegment.branch,
    Segment.truthValue, Segment.seq, Segment.push, Segment.line, Footprint.seq, Footprint.ofSize]

/-- A statement has the faults of its value. -/
theorem fault_statement (e : Expr) : e.layout.statement.fault = e.fault := by
  cases e <;> simp [fault, layout, Layout.ofValue, Layout.ofStatement, Layout.ofCondition,
    Segment.seq, Segment.push, Segment.emit, Segment.access, Segment.line, Footprint.seq,
    Footprint.ofSize]

/-- A call has its own fault first.  The arguments of an unknown function have
none. -/
theorem fault_call (name : String) (args : List Expr) :
    (call name args).fault = match intrinsic? name with
      | none => none
      | some f =>
        if args.length ≠ f.arity then some (.arity name f.arity args.length)
        else args.findSome? fault := by
  have hlength : ((layoutAll args).map Layout.value).length = args.length := by
    induction args with
    | nil => rfl
    | cons e es ih => rw [layoutAll, List.map_cons, List.length_cons, ih, List.length_cons]
  rw [fault, layout, Layout.ofValue, Segment.call, hlength, ← fault_all Layout.value fun _ => rfl]
  cases intrinsic? name with
  | none => rfl
  | some f => simp only [Segment.seq, Segment.emit, Segment.line, Footprint.seq, Footprint.ofSize,
      Option.or_none]

/-- The first fault in a tree that is no call is the first one in its operands. -/
theorem fault_eq_findSome? {e : Expr} (h : ∀ name args, e ≠ .call name args) :
    e.fault = e.operands.findSome? fault := by
  have hpair (lhs rhs : Expr) : [lhs, rhs].findSome? fault = lhs.fault.or rhs.fault := by
    rw [List.findSome?_cons, List.findSome?_singleton]
    cases lhs.fault <;> rfl
  cases e with
  | call name args => exact absurd rfl (h name args)
  | block statements =>
    rw [← fault_statement, operands, ← fault_all Layout.statement fault_statement, layout]
    rfl
  | conditional condition body =>
    rw [← fault_statement, operands, hpair, ← fault_condition condition .and, ← fault_statement body,
      layout]
    exact Option.or_none
  | literal | ident => rfl
  | assign name value =>
    rw [← fault_statement, operands, List.findSome?_singleton, layout]
    exact Option.or_none
  | arith op lhs rhs =>
    rw [fault, operands, hpair, layout]
    exact Option.or_none
  | cmp op lhs rhs =>
    rw [← fault_condition _ .and, operands, hpair, layout]
    exact Option.or_none
  | or lhs rhs =>
    rw [← fault_condition _ .or, operands, hpair, ← fault_condition lhs .or,
      ← fault_condition rhs .or, layout]
    exact Option.or_none
  | and lhs rhs =>
    rw [← fault_condition _ .and, operands, hpair, ← fault_condition lhs .and,
      ← fault_condition rhs .and, layout]
    exact Option.or_none

/-! ### The fault is that of the first miscall -/

/-- The fault of a tree names its first miscall; without a fault there is none. -/
structure Told (e : Expr) : Prop where
  first : ∀ fault, e.fault = some fault → e.FirstMiscall fault
  clean : e.fault = none → e.Clean

/-- A tree that is no miscall itself, and that is compiled with its operands. -/
theorem Told.of_operands {e : Expr} (hproper : e.Proper) (henters : e.Enters)
    (hfault : e.fault = e.operands.findSome? fault)
    (h : ∀ operand ∈ e.operands, operand.Told) : e.Told where
  first fault hsome := by
    obtain ⟨front, operand, back, hoperands, hoperand, hnone⟩ :=
      List.findSome?_eq_some_iff.1 (hfault.symm.trans hsome)
    have hmem : ∀ other, other ∈ front ∨ other = operand → other ∈ e.operands := by
      rintro other (hother | rfl) <;> rw [hoperands]
      · exact List.mem_append_left _ hother
      · exact List.mem_append_right _ List.mem_cons_self
    refine .of_operand hproper henters hoperands (fun other hother => ?_)
      ((h operand (hmem operand (.inr rfl))).first fault hoperand)
    exact (h other (hmem other (.inl hother))).clean (hnone other hother)
  clean hnone := by
    rw [hfault, List.findSome?_eq_none_iff] at hnone
    exact .of_operands hproper fun _ operand hmem => (h operand hmem).clean (hnone operand hmem)

/-- A call is not entered if its function is unknown, is the first miscall if the
number of its arguments is wrong, and is a tree like others otherwise. -/
theorem told_call {name : String} {args : List Expr} (h : ∀ arg ∈ args, arg.Told) :
    (call name args).Told := by
  have hfault := fault_call name args
  have hroot : ∀ name' f args', (call name args).Miscalled [] name' f args' →
      intrinsic? name = some f ∧ args.length ≠ f.arity := by
    intro name' f args' hmiscalled
    obtain ⟨heq, hknown, harity⟩ := miscalled_nil_iff.1 hmiscalled
    cases heq
    exact ⟨hknown, harity⟩
  cases hknown : intrinsic? name with
  | none =>
    rw [hknown] at hfault hroot
    refine ⟨fun fault hsome => ?_, fun _ => .of_operands (fun name' f args' hmiscalled => ?_) ?_⟩
    · rw [hfault] at hsome
      cases hsome
    · cases (hroot name' f args' hmiscalled).1
    · exact fun henters => absurd hknown (henters name args rfl)
  | some f =>
    rw [hknown] at hfault hroot
    by_cases harity : args.length = f.arity
    · refine .of_operands (fun name' f' args' hmiscalled => ?_) ?_ ?_ h
      · obtain ⟨hf, hne⟩ := hroot name' f' args' hmiscalled
        exact hne (Option.some.inj hf ▸ harity)
      · rintro name' args' ⟨⟩
        rw [hknown]
        exact Option.some_ne_none f
      · exact hfault.trans (if_neg (not_not.2 harity))
    · have hmiscall : (call name args).Miscalled [] name f args :=
        miscalled_nil_iff.2 ⟨rfl, hknown, harity⟩
      have hsome : (call name args).fault = some (.arity name f.arity args.length) :=
        hfault.trans (if_pos harity)
      refine ⟨fun fault h => ⟨[], name, f, args, hmiscall, ?_, ?_⟩, fun h => ?_⟩
      · rintro path' name' f' args' ⟨⟩
      · exact Option.some.inj (h.symm.trans hsome)
      · rw [hsome] at h
        cases h

/-- **The fault of every tree is that of its first miscall.** -/
theorem told (e : Expr) : e.Told := by
  induction e using induction_operands with
  | h e ih =>
    have hother (hne : ∀ name args, e ≠ .call name args) : e.Told :=
      .of_operands (fun name f args h => hne name args (miscalled_nil_iff.1 h).1)
        (fun name args h => absurd h (hne name args)) (fault_eq_findSome? hne) ih
    cases e with
    | call name args => exact told_call ih
    | _ => exact hother fun name args h => by cases h

theorem fault_eq_some_iff {e : Expr} {fault : CompileError} :
    e.fault = some fault ↔ e.FirstMiscall fault := by
  refine ⟨e.told.first fault, fun h => ?_⟩
  cases hfault : e.fault with
  | some fault' => rw [h.eq (e.told.first fault' hfault)]
  | none =>
    obtain ⟨path, name, f, args, hmiscalled, -⟩ := h
    exact absurd hmiscalled (e.told.clean hfault path name f args)

theorem result_eq_error_iff {e : Expr} {c : Chunk} {fault : CompileError} :
    (e.compileInto c).result = .error fault ↔ e.fault = some fault := by
  have hprogram : e.program.fault = e.fault := (Option.or_none).trans e.fault_statement
  rw [result_compileInto, hprogram]
  cases e.fault <;> simp

/-- A tree without a miscall compiles. -/
theorem Clean.exists_result {e : Expr} (h : e.Clean) (c : Chunk) :
    ∃ d, (e.compileInto c).result = .ok d := by
  cases hresult : (e.compileInto c).result with
  | ok d => exact ⟨d, rfl⟩
  | error fault =>
    obtain ⟨path, name, f, args, hmiscalled, -⟩ :=
      fault_eq_some_iff.1 (result_eq_error_iff.1 hresult)
    exact absurd hmiscalled (h path name f args)

/-- **A tree fails to compile exactly for its first miscall,** whatever chunk it is
compiled into.  Reading a field never fails, declared or not, and calling an unknown
function never does, whatever its arguments are. -/
theorem compileInto_eq_error_iff (e : Expr) (c : Chunk) :
    (∀ fault, (e.compileInto c).result = .error fault ↔ e.FirstMiscall fault) ∧
      ((∃ fault, (e.compileInto c).result = .error fault) ↔
        ∃ path name f args, e.Miscalled path name f args) ∧
      (∀ name, ∃ d, ((ident name).compileInto c).result = .ok d) ∧
      ∀ name args, intrinsic? name = none → ∃ d, ((call name args).compileInto c).result = .ok d := by
  refine ⟨fun fault => result_eq_error_iff.trans fault_eq_some_iff, ⟨?_, ?_⟩, ?_, ?_⟩
  · rintro ⟨fault, hfault⟩
    obtain ⟨path, name, f, args, hmiscalled, -⟩ :=
      fault_eq_some_iff.1 (result_eq_error_iff.1 hfault)
    exact ⟨path, name, f, args, hmiscalled⟩
  · rintro ⟨path, name, f, args, hmiscalled⟩
    cases hfault : e.fault with
    | some fault => exact ⟨fault, result_eq_error_iff.2 hfault⟩
    | none => exact absurd hmiscalled (e.told.clean hfault path name f args)
  · intro name
    exact ((ident name).told.clean rfl).exists_result c
  · intro name args hunknown
    have hfault : (call name args).fault = none := by rw [fault_call, hunknown]
    exact ((call name args).told.clean hfault).exists_result c

/-- `x = noise(sin()); if (clamp(sin()) < y) { sin(); }`, where `noise` is no
function. -/
def nestedMiscalls : Expr :=
  block [assign "x" (call "noise" [call "sin" []]),
    conditional (cmp .lt (call "clamp" [call "sin" []]) (ident "y")) (block [call "sin" []])]

/-- Of its four miscalls the one in the argument of `noise` does not count, and
`clamp` is reported before the call in its own argument and the one in the body. -/
theorem nestedMiscalls_eq_error :
    (nestedMiscalls.compileInto Chunk.empty).result = .error (.arity "clamp" 3 1) ∧
      nestedMiscalls.FirstMiscall (.arity "clamp" 3 1) ∧
      ∃ d, ((call "noise" [call "sin" []]).compileInto Chunk.empty).result = .ok d := by
  have hresult : (nestedMiscalls.compileInto Chunk.empty).result = .error (.arity "clamp" 3 1) := by
    rw [result_compileInto]
    rfl
  exact ⟨hresult, ((compileInto_eq_error_iff _ _).1 _).1 hresult,
    (compileInto_eq_error_iff (ident "y") Chunk.empty).2.2.2 _ _ rfl⟩

end Expr
end FieldScript
