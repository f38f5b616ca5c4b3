/-
# The machine follows the evaluator

`Shows` relates a state of the machine to a world of the evaluator at a site:
the machine is at the offset of the site, its stack and its generator are given,
and its table of fields backs the world's.

Running a segment takes the machine from showing one world at its site to
showing another behind it (`Segment.Runs`), and running a condition takes it to
one of its exits (`JumpSegment.Lands`).  A test may also fall through instead of
going to an exit: when it holds under `and`, and when it fails under `or`.

The rules follow the ways in which segments are put together.  With them the
layout of every tree does what the tree means (`Expr.simulates`).
-/

import FieldScript.Proofs.Evaluator
import FieldScript.Proofs.Stepping

namespace FieldScript

/-- Code and the names of the fields that it addresses, both within the range
of a word. -/
structure Image where
  code : Array UInt8
  names : List String
  code_lt : code.size < UInt32.size
  names_le : names.length ≤ UInt32.size

/-- The machine is at a site with a stack and shows a world. -/
structure Shows (image : Image) (site : Site) (stack : List Single) (w : World) (s : RunState) :
    Prop where
  offset : s.offset = site.offset
  stack : s.stack = stack
  generator : s.generator = w.generator
  names : Field.names w.fields = site.names
  table : Field.names s.fields.toList = image.names
  backs : Field.Backs s.fields.toList w.fields

namespace Shows

variable {image : Image} {site : Site} {stack : List Single} {w : World} {s : RunState}

/-- Skipped code declares its names and does nothing else. -/
theorem declare {o : Nat} {ns as bs : List String} (h : Shows image ⟨o, ns⟩ stack w s)
    (hsame : SameNames as bs) (hnames : as.foldl declareName ns <+: image.names) :
    Shows image ⟨o, as.foldl declareName ns⟩ stack (w.declare bs) s where
  offset := h.offset
  stack := h.stack
  generator := h.generator
  names := by rw [World.declare, Field.names_declareAll, h.names, hsame ns]
  table := h.table
  backs := h.backs.declareAll (by rw [h.names, h.table, ← hsame ns]; exact hnames)

/-- The machine moves on and changes its stack. -/
theorem move (h : Shows image site stack w s) (o : Nat) (stack' : List Single) :
    Shows image ⟨o, site.names⟩ stack' w { s with offset := o, stack := stack' } :=
  ⟨rfl, rfl, h.generator, h.names, h.table, h.backs⟩

/-- The machine has the line at its site before it. -/
theorem decodeAt (h : Shows image site stack w s) {l : Line}
    (hholds : Line.Holds image.code [l.instr site.offset]) :
    Instr.decodeAt image.code s.offset = .ok (l.instr s.offset) := by
  rw [h.offset]
  exact hholds _ (List.mem_singleton_self _)

end Shows

/-- The code holds the lines of a segment at a site, and the names that the
segment declares are in the image. -/
structure Segment.In (g : Segment) (image : Image) (site : Site) : Prop where
  holds : Line.Holds image.code (Line.instrsAt site.offset (g.lines site))
  names : (site.after g).names <+: image.names

/-- Where a condition goes on. -/
def Exits.goal (exits : Exits) (holds : Bool) : Nat := if holds then exits.onTrue else exits.onFalse

/-- Both exits are at an offset or behind it, and a word keeps them. -/
def Exits.Ahead (exits : Exits) (offset : Nat) : Prop :=
  ∀ holds, offset ≤ exits.goal holds ∧ exits.goal holds < UInt32.size

/-- The same for a condition with its exits, which lie ahead. -/
structure JumpSegment.In (c : JumpSegment) (image : Image) (exits : Exits) (site : Site) : Prop where
  holds : Line.Holds image.code (Line.instrsAt site.offset (c.lines exits site))
  names : (site.after c).names <+: image.names
  ahead : exits.Ahead (site.after c).offset

/-- Running a segment at a site changes the stack and the world as given. -/
def Segment.Runs (g : Segment) (image : Image) (site : Site) (stack : List Single) (w : World)
    (stack' : List Single) (w' : World) : Prop :=
  g.In image site → ∀ s, Shows image site stack w s →
    ∃ t, Advances image.code s t ∧ Shows image (site.after g) stack' w' t

/-- Running a condition at a site changes the stack and the world as given and
goes on where it should, or behind itself when it need not jump away. -/
def JumpSegment.Lands (c : JumpSegment) (junction : Junction) (image : Image) (exits : Exits)
    (site : Site) (stack : List Single) (w : World) (holds : Bool) (stack' : List Single)
    (w' : World) : Prop :=
  c.In image exits site → ∀ s, Shows image site stack w s →
    ∃ t o, Advances image.code s t ∧ Shows image ⟨o, (site.after c).names⟩ stack' w' t ∧
      (o = exits.goal holds ∨ o = (site.after c).offset ∧ holds = decide (junction = .and))

section Lines

variable {image : Image} {site : Site} {stack stack₁ stack₂ : List Single} {w w₁ w₂ : World}

theorem Segment.In.of_seq {a b : Segment} (h : (a.seq b).In image site) :
    a.In image site ∧ b.In image (site.after a) := by
  have hholds := h.holds
  have hnames := h.names
  rw [Segment.seq, Line.instrsAt_append, Line.Holds.append_iff, a.total_lines] at hholds
  rw [Segment.seq, Site.after_seq] at hnames
  exact ⟨⟨hholds.1, ((site.after a).prefix_after b).trans hnames⟩, ⟨hholds.2, hnames⟩⟩

theorem Segment.Runs.seq {a b : Segment} (ha : a.Runs image site stack w stack₁ w₁)
    (hb : b.Runs image (site.after a) stack₁ w₁ stack₂ w₂) :
    (a.seq b).Runs image site stack w stack₂ w₂ := by
  intro hin s hs
  obtain ⟨hina, hinb⟩ := hin.of_seq
  obtain ⟨t, hst, ht⟩ := ha hina s hs
  obtain ⟨u, htu, hu⟩ := hb hinb t ht
  refine ⟨u, hst.trans htu, ?_⟩
  rw [Segment.seq, Site.after_seq]
  exact hu

theorem Segment.Runs.empty : Segment.empty.Runs image site stack w stack w :=
  fun _ s hs => ⟨s, .refl s, hs⟩

/-- What a segment reports has no part in how it runs. -/
theorem Segment.Runs.congr {g h : Segment} (hg : g.Runs image site stack w stack₁ w₁)
    (hlines : h.lines = g.lines) (hafter : site.after h = site.after g) :
    h.Runs image site stack w stack₁ w₁ := by
  intro hin
  rw [hafter]
  exact hg ⟨hlines ▸ hin.holds, hafter ▸ hin.names⟩

/-- A segment of one line runs if executing the line does what it should. -/
theorem Segment.Runs.of_line {g : Segment} {l : Line} (hlines : g.lines site = [l])
    (hret : l.opcode ≠ .ret)
    (h : g.In image site → ∀ s, Shows image site stack w s → ∃ t,
      Exec.execute (l.instr s.offset) { s with offset := s.offset + l.opcode.length } = .ok () t ∧
      Shows image (site.after g) stack₁ w₁ t) : g.Runs image site stack w stack₁ w₁ := by
  intro hin s hs
  obtain ⟨t, hexec, ht⟩ := h hin s hs
  have hholds := hin.holds
  rw [hlines] at hholds
  refine ⟨t, .one (hs.decodeAt hholds) hexec hret ?_, ht⟩
  have hsize : g.size = l.opcode.length := by
    rw [← g.total_lines site, hlines, Line.total_cons, Line.total_nil, Nat.add_zero]
  have hpos := l.opcode.length_pos
  rw [ht.offset, hs.offset, Site.after]
  dsimp only
  omega

theorem Segment.Runs.push (x : Single) :
    (Segment.push x).Runs image site stack w (x :: stack) w := by
  refine .of_line rfl (by simp) fun _ s hs => ⟨_, rfl, ?_⟩
  rw [hs.offset, hs.stack]
  exact hs.move _ _

theorem Segment.Runs.discard (x : Single) :
    (Segment.emit .discard).Runs image site (x :: stack) w stack w := by
  refine .of_line rfl (by simp) fun _ s hs => ⟨_, bind_of_ok (Exec.pop_apply _ hs.stack), ?_⟩
  rw [hs.offset]
  exact hs.move _ _

theorem Exec.arith_apply (op : ArithOp) {s : RunState} {x y : Single} (offset : Nat)
    (h : s.stack = y :: x :: stack) :
    execute (Line.instr offset ⟨op.opcode, 0⟩) s =
      .ok () { s with stack := op.apply x y :: stack } := by
  cases op with
  | sub => exact binary_apply (fun x y => y.sub x) h
  | _ => exact binary_apply _ h

theorem Segment.Runs.arith (op : ArithOp) (x y : Single) :
    (Segment.emit op.opcode).Runs image site (y :: x :: stack) w (op.apply x y :: stack) w := by
  refine .of_line rfl (by cases op <;> simp [ArithOp.opcode]) fun _ s hs =>
    ⟨_, Exec.arith_apply op _ hs.stack, ?_⟩
  rw [hs.offset]
  exact hs.move _ _

/-- A slot of the image is kept by a word. -/
theorem Image.toNat_slot (image : Image) {k : Nat} (h : k < image.names.length) :
    k.toUInt32.toNat = k := by
  have := image.names_le
  exact UInt32.toNat_ofNat_of_lt' (by omega)

theorem Segment.Runs.load {name : String} (h : name ∈ site.names) {g : Segment}
    (hlines : g.lines site = [⟨.loadField, (slotFor site.names name).toUInt32⟩])
    (hafter : site.after g = ⟨site.offset + 5, site.names⟩) :
    g.Runs image site stack w (w.read name :: stack) w := by
  refine .of_line hlines (by simp) fun hin s hs => ?_
  have hmem : name ∈ Field.names w.fields := hs.names ▸ h
  obtain ⟨f, hf, hread⟩ := hs.backs.read hmem
  have hslot : (slotFor site.names name).toUInt32.toNat = slotFor site.names name := by
    refine image.toNat_slot (Nat.lt_of_lt_of_le (slotFor_lt h) ?_)
    have := hin.names.length_le
    rwa [hafter] at this
  rw [hs.names, ← hslot, Array.getElem?_toList] at hf
  refine ⟨_, Exec.load_apply rfl hf, ?_⟩
  rw [hafter, hs.offset, World.read, hread, hs.stack]
  exact hs.move _ _

theorem Segment.Runs.read (name : String) :
    (Segment.read name).Runs image site stack w (w.read name :: stack) w := by
  by_cases h : name ∈ site.names
  · exact .load h (if_pos h) rfl
  · refine .of_line (if_neg h) (by simp) fun _ s hs => ⟨_, rfl, ?_⟩
    have hmem : name ∉ Field.names w.fields := hs.names ▸ h
    rw [World.read, Field.read_of_not_mem hmem, hs.offset, hs.stack]
    exact hs.move _ _

theorem Segment.Runs.store (name : String) (x : Single) :
    (Segment.access .storeField name).Runs image site (x :: stack) w stack (w.write name x) := by
  refine .of_line rfl (by simp) fun hin s hs => ?_
  have hdeclared : declareName site.names name <+: image.names := hin.names
  have hlt := Nat.lt_of_lt_of_le (slotFor_lt_length_declareName site.names name)
    hdeclared.length_le
  have hslot := image.toNat_slot hlt
  have hsize : image.names.length = s.fields.size := by
    rw [← hs.table, Field.length_names, Array.length_toList]
  refine ⟨_, Exec.store_apply rfl hs.stack (by rw [hslot, ← hsize]; exact hlt), ?_⟩
  rw [hslot]
  refine ⟨by rw [hs.offset]; rfl, rfl, hs.generator, ?_, ?_, ?_⟩
  · rw [World.write, Field.names_write, hs.names]
    rfl
  · rw [Array.toList_modify, Field.names_modify_value, hs.table]
  · rw [← hs.names, ← hs.table] at hdeclared
    rw [Array.toList_modify, ← hs.names]
    exact hs.backs.write hdeclared x

/-- A field that was just stored to is declared. -/
theorem Segment.Runs.reload {name : String} (h : name ∈ site.names) :
    (Segment.access .loadField name).Runs image site stack w (w.read name :: stack) w :=
  .load h rfl (by rw [Site.after]; exact congrArg (Site.mk _) (declareName_of_mem h))

/-- The instruction of a function replaces its arguments by its value. -/
structure Intrinsic.Performs (f : Intrinsic) (builtin : Builtin) : Prop where
  opcode_ne : f.opcode ≠ .ret
  execute : ∀ (offset : Nat) {s : RunState} {xs rest : List Single}, xs.length = f.arity →
    s.stack = xs.reverse ++ rest →
    Exec.execute (Line.instr offset ⟨f.opcode, 0⟩) s = .ok () { s with
      stack := (builtin xs s.generator).1 :: rest, generator := (builtin xs s.generator).2 }

namespace Intrinsic

theorem performs_unary {op : Opcode} (g : Single → Single) (hop : op ≠ .ret)
    (h : ∀ offset, Exec.execute (Line.instr offset ⟨op, 0⟩) =
      Exec.unary (Line.instr offset ⟨op, 0⟩) g) : Performs ⟨op, 1⟩ (Builtin.unary g) where
  opcode_ne := hop
  execute offset s xs rest hxs hs := by
    obtain ⟨x, rfl⟩ := List.length_eq_one_iff.1 hxs
    rw [h]
    exact Exec.unary_apply g hs

theorem performs_ternary {op : Opcode} (g : Single → Single → Single → Single) (hop : op ≠ .ret)
    (h : ∀ offset, Exec.execute (Line.instr offset ⟨op, 0⟩) =
      Exec.ternary (Line.instr offset ⟨op, 0⟩) g) : Performs ⟨op, 3⟩ (Builtin.ternary g) where
  opcode_ne := hop
  execute offset s xs rest hxs hs := by
    obtain ⟨x, y, z, rfl⟩ := List.length_eq_three.1 hxs
    rw [h]
    exact Exec.ternary_apply g hs

theorem performs_draw : Performs ⟨.rand, 2⟩ Builtin.draw where
  opcode_ne := by simp
  execute offset s xs rest hxs hs := by
    obtain ⟨x, y, rfl⟩ := List.length_eq_two.1 hxs
    exact Exec.draw_apply hs

/-- The compiler and the evaluator know the same functions. -/
theorem performs_of_name (name : String) :
    (intrinsic? name = none ∧ Builtin.named? name = none) ∨
      ∃ f builtin, intrinsic? name = some f ∧ Builtin.named? name = some builtin ∧
        Performs f builtin := by
  unfold intrinsic?
  split
  case h_22 => exact .inl ⟨rfl, by unfold Builtin.named?; split <;> simp_all⟩
  case h_21 => exact .inr ⟨_, _, rfl, rfl, performs_draw⟩
  case h_18 | h_19 | h_20 => exact .inr ⟨_, _, rfl, rfl, performs_ternary _ (by simp) fun _ => rfl⟩
  all_goals exact .inr ⟨_, _, rfl, rfl, performs_unary _ (by simp) fun _ => rfl⟩

end Intrinsic

theorem Segment.Runs.intrinsic {f : Intrinsic} {builtin : Builtin} (hf : f.Performs builtin)
    {xs : List Single} (hxs : xs.length = f.arity) :
    (Segment.emit f.opcode).Runs image site (xs.reverse ++ stack) w
      ((builtin xs w.generator).1 :: stack)
      { w with generator := (builtin xs w.generator).2 } := by
  refine .of_line rfl hf.opcode_ne fun _ s hs => ⟨_, hf.execute _ hxs hs.stack, ?_⟩
  refine ⟨?_, ?_, ?_, hs.names, hs.table, hs.backs⟩
  · rw [hs.offset]
    rfl
  · rw [hs.generator]
  · rw [hs.generator]

end Lines

/-! ### Jumps -/

namespace Exits

variable {exits : Exits} {start stop : Nat} {junction : Junction}

/-- A condition that falls through goes on where its junction goes through. -/
theorem goal_through : exits.goal (decide (junction = .and)) = exits.through junction := by
  cases junction <;> rfl

/-- A left operand that does not decide its junction goes on at the right one. -/
theorem goal_left_through : (exits.left start junction).goal (decide (junction = .and)) = start := by
  cases junction <;> rfl

/-- A left operand that decides its junction goes on where the junction does. -/
theorem goal_left_away {holds : Bool} (h : holds ≠ decide (junction = .and)) :
    (exits.left start junction).goal holds = exits.goal holds := by
  cases junction <;> cases holds <;> first | rfl | exact absurd rfl h

theorem Ahead.mono (h : exits.Ahead stop) (hle : start ≤ stop) : exits.Ahead start :=
  fun holds => ⟨Nat.le_trans hle (h holds).1, (h holds).2⟩

theorem Ahead.left (h : exits.Ahead stop) (hle : start ≤ stop) :
    (exits.left start junction).Ahead start := by
  intro holds
  by_cases hthrough : holds = decide (junction = .and)
  · rw [hthrough, goal_left_through]
    have := h true
    omega
  · rw [goal_left_away hthrough]
    exact h.mono hle holds

end Exits

section Jumps

variable {image : Image} {site : Site} {stack : List Single} {w w₁ w₂ : World} {exits : Exits}

/-- A word keeps the target of a jump. -/
theorem toNat_target {target : Nat} (h : target < UInt32.size) : target.toUInt32.toNat = target :=
  UInt32.toNat_ofNat_of_lt' h

theorem Shows.jump {s : RunState} (hs : Shows image site stack w s) {target : Nat}
    (hholds : Line.Holds image.code [Line.instr site.offset ⟨.jump, target.toUInt32⟩])
    (hlt : site.offset < target) (hmax : target < UInt32.size) :
    ∃ t, Advances image.code s t ∧ Shows image ⟨target, site.names⟩ stack w t := by
  have hexec : Exec.execute (Line.instr s.offset ⟨.jump, target.toUInt32⟩)
      { s with offset := s.offset + 5 } = .ok () { s with offset := target.toUInt32.toNat } := rfl
  rw [toNat_target hmax] at hexec
  refine ⟨_, .one (hs.decodeAt hholds) hexec (by simp) (hs.offset ▸ hlt), ?_⟩
  rw [hs.stack]
  exact hs.move _ _

theorem Shows.jumpIf {s : RunState} {x y : Single} (hs : Shows image site (y :: x :: stack) w s)
    (op : CmpOp) {target : Nat}
    (hholds : Line.Holds image.code [Line.instr site.offset ⟨op.jumpOpcode, target.toUInt32⟩])
    (hlt : site.offset < target) (hmax : target < UInt32.size) :
    ∃ t, Advances image.code s t ∧
      Shows image ⟨if op.holds x y then target else site.offset + 5, site.names⟩ stack w t := by
  have hret : op.jumpOpcode ≠ .ret := by cases op <;> simp [CmpOp.jumpOpcode]
  have hlength : op.jumpOpcode.length = 5 := by cases op <;> rfl
  have hexec := Exec.jumpIf_apply (s := { s with offset := s.offset + op.jumpOpcode.length })
    op.holds (Exec.operand_jumpOpcode op s.offset target.toUInt32) hs.stack
  rw [← Exec.execute_cmp] at hexec
  refine ⟨_, .one (hs.decodeAt hholds) hexec hret ?_, ?_⟩
  · rw [hs.offset, hlength, toNat_target hmax]
    dsimp only
    split <;> omega
  · rw [hs.offset, hlength, toNat_target hmax]
    exact hs.move _ _

theorem JumpSegment.Lands.test (op : CmpOp) (junction : Junction) (x y : Single) :
    (JumpSegment.test op junction).Lands junction image exits site (y :: x :: stack) w
      (op.judge junction x y) stack w := by
  intro hin s hs
  have hlt : ∀ {target}, site.offset + 5 ≤ target → site.offset < target := by omega
  cases junction with
  | and =>
    have hahead := hin.ahead false
    obtain ⟨t, hst, ht⟩ := hs.jumpIf op.negated hin.holds (hlt hahead.1) hahead.2
    refine ⟨t, _, hst, ht, ?_⟩
    rw [CmpOp.judge]
    cases op.negated.holds x y
    · exact .inr ⟨rfl, rfl⟩
    · exact .inl rfl
  | or =>
    have hahead := hin.ahead true
    obtain ⟨t, hst, ht⟩ := hs.jumpIf op hin.holds (hlt hahead.1) hahead.2
    refine ⟨t, _, hst, ht, ?_⟩
    rw [CmpOp.judge]
    cases op.holds x y
    · exact .inr ⟨rfl, rfl⟩
    · exact .inl rfl

theorem JumpSegment.Lands.behind {a : Segment} {c : JumpSegment} {junction : Junction}
    {stack₁ stack₂ : List Single} {holds : Bool} (ha : a.Runs image site stack w stack₁ w₁)
    (hc : c.Lands junction image exits (site.after a) stack₁ w₁ holds stack₂ w₂) :
    (JumpSegment.behind a c).Lands junction image exits site stack w holds stack₂ w₂ := by
  intro hin s hs
  have ⟨hholds, hnames, hahead⟩ := hin
  rw [JumpSegment.behind, Line.instrsAt_append, Line.Holds.append_iff, a.total_lines] at hholds
  rw [JumpSegment.behind, Site.after_seq] at hnames hahead ⊢
  obtain ⟨t, hst, ht⟩ := ha ⟨hholds.1, ((site.after a).prefix_after c).trans hnames⟩ s hs
  obtain ⟨u, o, htu, hu, ho⟩ := hc ⟨hholds.2, hnames, hahead⟩ t ht
  exact ⟨u, o, hst.trans htu, hu, ho⟩

/-- Where the parts of two joined conditions are. -/
theorem JumpSegment.In.of_branch {junction : Junction} {l r : JumpSegment}
    (h : (JumpSegment.branch junction l r).In image exits site) :
    l.In image (exits.left (site.after l).offset junction) site ∧ r.In image exits (site.after l) ∧
      Line.Holds image.code [Line.instr ((site.after l).after r).offset
        ⟨.jump, (exits.through junction).toUInt32⟩] ∧
      exits.Ahead (((site.after l).after r).offset + 5) := by
  have ⟨hholds, hnames, hahead⟩ := h
  rw [JumpSegment.branch, Line.instrsAt_append, Line.instrsAt_append, Line.Holds.append_iff,
    Line.Holds.append_iff, Line.total_append, l.total_lines, r.total_lines, ← Nat.add_assoc]
    at hholds
  rw [JumpSegment.branch, Site.after_seq, Site.after_seq, Site.after_ofSize] at hnames hahead
  have hmid : (site.after l).offset ≤ ((site.after l).after r).offset := Nat.le_add_right _ _
  exact ⟨⟨hholds.1.1, ((site.after l).prefix_after r).trans hnames, hahead.left (by dsimp only; omega)⟩,
    ⟨hholds.1.2, hnames, hahead.mono (Nat.le_add_right _ _)⟩, hholds.2, hahead⟩

/-- Two conditions joined: the right one counts if the left one does not decide,
and is skipped otherwise.  A junction always jumps, whatever it stands under. -/
theorem JumpSegment.Lands.branch {junction outer : Junction} {l r : JumpSegment} {as : List String}
    {left right : Bool}
    (hl : ∀ exits, l.Lands junction image exits site stack w left stack w₁)
    (hr : r.Lands junction image exits (site.after l) stack w₁ right stack w₂)
    (hsame : SameNames r.assigned as) :
    let out := if left = decide (junction = .and) then (right, w₂) else (left, w₁.declare as)
    (JumpSegment.branch junction l r).Lands outer image exits site stack w out.1 stack out.2 := by
  intro out hin s hs
  obtain ⟨hinl, hinr, hholds, hahead⟩ := hin.of_branch
  rw [JumpSegment.branch, Site.after_seq, Site.after_seq, Site.after_ofSize]
  obtain ⟨t, o, hst, ht, ho⟩ := hl _ hinl s hs
  by_cases hthrough : left = decide (junction = .and)
  · have hout : out = (right, w₂) := if_pos hthrough
    have ho' : o = (site.after l).offset := by
      rcases ho with rfl | ⟨rfl, _⟩
      · rw [hthrough, Exits.goal_left_through]
      · rfl
    subst ho'
    obtain ⟨u, o, htu, hu, ho⟩ := hr hinr t ht
    rw [hout]
    rcases ho with rfl | ⟨rfl, hright⟩
    · exact ⟨u, _, hst.trans htu, hu, .inl rfl⟩
    · -- both operands fell through to the jump behind them
      have hexit := hahead right
      rw [hright, Exits.goal_through] at hexit
      obtain ⟨v, huv, hv⟩ := hu.jump hholds (by dsimp only; omega) hexit.2
      refine ⟨v, _, (hst.trans htu).trans huv, hv, .inl ?_⟩
      rw [hright, Exits.goal_through]
  · have hout : out = (left, w₁.declare as) := if_neg hthrough
    have ho' : o = exits.goal left := by
      rcases ho with rfl | ⟨_, h⟩
      · exact Exits.goal_left_away hthrough
      · exact absurd h hthrough
    rw [hout]
    exact ⟨t, o, hst, ht.declare hsame hinr.names, .inl ho'⟩

/-- A condition whose code ends where it goes on when it holds always reaches an
exit. -/
theorem JumpSegment.Lands.reaches {c : JumpSegment} {holds : Bool} {onFalse : Nat}
    (hc : c.Lands .and image ⟨(site.after c).offset, onFalse⟩ site stack w holds stack w₁)
    (hin : c.In image ⟨(site.after c).offset, onFalse⟩ site) {s : RunState}
    (hs : Shows image site stack w s) :
    ∃ t, Advances image.code s t ∧
      Shows image ⟨if holds then (site.after c).offset else onFalse, (site.after c).names⟩
        stack w₁ t := by
  obtain ⟨t, o, hst, ht, ho⟩ := hc hin s hs
  rcases ho with rfl | ⟨rfl, rfl⟩
  · exact ⟨t, hst, ht⟩
  · exact ⟨t, hst, ht⟩

/-- A word keeps every offset up to the end of a line. -/
theorem Image.lt_of_holds (image : Image) {offset target : Nat} {l : Line}
    (h : Line.Holds image.code [l.instr offset]) (hle : target ≤ offset + l.opcode.length) :
    target < UInt32.size := by
  have hnext := Instr.next_le_of_decodeAt (h _ (List.mem_singleton_self _))
  rw [Line.instr_next] at hnext
  have := image.code_lt
  omega

theorem Segment.Runs.truthValue {c : JumpSegment} {holds : Bool}
    (hc : ∀ exits, c.Lands .and image exits site stack w holds stack w₁) :
    (Segment.truthValue c).Runs image site stack w
      ((if holds then Single.one else Single.zero) :: stack) w₁ := by
  intro hin s hs
  have ⟨hholds, hnames⟩ := hin
  rw [Segment.truthValue, Line.instrsAt_append, Line.Holds.append_iff, c.total_lines] at hholds
  rw [Segment.truthValue, Site.after_seq, Site.after_ofSize] at hnames ⊢
  obtain ⟨hholdsc, hholdsv⟩ := hholds
  obtain ⟨hone, hrest⟩ := Line.Holds.cons_iff.1 hholdsv
  obtain ⟨hjump, hzero⟩ := Line.Holds.cons_iff.1 hrest
  have hmax : ∀ {target}, target ≤ (site.after c).offset + 15 → target < UInt32.size :=
    image.lt_of_holds hzero
  have hahead : Exits.Ahead ⟨(site.after c).offset, (site.after c).offset + 10⟩
      (site.after c).offset
    | true => ⟨Nat.le_refl _, hmax (Nat.le_add_right _ 15)⟩
    | false => ⟨Nat.le_add_right _ 10, hmax (Nat.add_le_add_left (by decide) _)⟩
  obtain ⟨t, hst, ht⟩ := (hc _).reaches ⟨hholdsc, hnames, hahead⟩ hs
  cases holds with
  | false =>
    have hin : (Segment.push Single.zero).In image
      ⟨(site.after c).offset + 10, (site.after c).names⟩ := ⟨hzero, hnames⟩
    obtain ⟨u, htu, hu⟩ := Segment.Runs.push Single.zero hin t ht
    exact ⟨u, hst.trans htu, hu⟩
  | true =>
    obtain ⟨u, htu, hu⟩ := Segment.Runs.push Single.one ⟨hone, hnames⟩ t ht
    obtain ⟨v, huv, hv⟩ := hu.jump hjump (Nat.add_lt_add_left (by decide) _) (hmax (Nat.le_refl _))
    exact ⟨v, (hst.trans htu).trans huv, hv⟩

theorem Segment.Runs.conditional {c : JumpSegment} {body : Segment} {holds : Bool}
    {as : List String} (hc : ∀ exits, c.Lands .and image exits site stack w holds stack w₁)
    (hbody : body.Runs image (site.after c) stack w₁ stack w₂) (hsame : SameNames body.assigned as) :
    (Segment.conditional c body).Runs image site stack w stack
      (if holds then w₂ else w₁.declare as) := by
  intro hin s hs
  have ⟨hholds, hnames⟩ := hin
  rw [Segment.conditional, Line.instrsAt_append, Line.instrsAt_append, Line.Holds.append_iff,
    Line.Holds.append_iff, Line.total_append, c.total_lines, body.total_lines, ← Nat.add_assoc]
    at hholds
  obtain ⟨⟨hholdsc, hholdsb⟩, hjump⟩ := hholds
  rw [Site.after_conditional] at hnames ⊢
  have hmax : ∀ {target}, target ≤ ((site.after c).after body).offset + 5 → target < UInt32.size :=
    image.lt_of_holds hjump
  have hmid : (site.after c).offset ≤ ((site.after c).after body).offset + 5 :=
    Nat.le_add_right_of_le (Nat.le_add_right _ _)
  have hahead : Exits.Ahead ⟨(site.after c).offset, ((site.after c).after body).offset + 5⟩
      (site.after c).offset
    | true => ⟨Nat.le_refl _, hmax hmid⟩
    | false => ⟨hmid, hmax (Nat.le_refl _)⟩
  have hnamesc := ((site.after c).prefix_after body).trans hnames
  obtain ⟨t, hst, ht⟩ := (hc _).reaches ⟨hholdsc, hnamesc, hahead⟩ hs
  cases holds with
  | false => exact ⟨t, hst, ht.declare hsame hnames⟩
  | true =>
    obtain ⟨u, htu, hu⟩ := hbody ⟨hholdsb, hnames⟩ t ht
    obtain ⟨v, huv, hv⟩ := hu.jump hjump (Nat.lt_add_of_pos_right (by decide)) (hahead false).2
    exact ⟨v, (hst.trans htu).trans huv, hv⟩

end Jumps
end FieldScript
