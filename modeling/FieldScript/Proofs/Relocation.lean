/-
# Compiling behind existing code

A chunk that is compiled into may have code already, of whatever kind.  That
code stays as it is, and the new code is what a chunk without code would get,
moved: a jump goes further by the number of bytes in front, and nothing else
changes.

A line knows no offset, so moving code is a map over its lines (`Line.moved`).
A piece of code `moves` if its lines at a site further on are its lines moved;
for a condition its exits move along (`JumpSegment.Moves`).  The words are
compared modulo `2^32`, where this holds of any offset.  That no word wraps
around is another matter: the targets of compiled code lie in it, so moved they
lie in the whole code.

The fields grow at the end by the names that are new, and these are the names
that the tree assigns, each where it is assigned first (`newNames_foldl`).
-/

import FieldScript.Proofs.Balance
import FieldScript.Proofs.Correctness
import FieldScript.Proofs.Paths
import Mathlib.Data.List.Induction

namespace FieldScript

/-! ### Names that are new -/

/-- The names of a row that are not among `ns`, each once and in the order in
which they first occur. -/
structure NewNames (ns as new : List String) : Prop where
  mem : ∀ name, name ∈ new ↔ name ∈ as ∧ name ∉ ns
  order : new.Pairwise fun a b => as.idxOf a < as.idxOf b

theorem NewNames.nodup {ns as new : List String} (h : NewNames ns as new) : new.Nodup :=
  h.order.imp fun hlt heq => by rw [heq] at hlt; exact Nat.lt_irrefl _ hlt

/-- **Declaring names adds those that are new.** -/
theorem newNames_foldl (ns as : List String) :
    ∃ new, as.foldl declareName ns = ns ++ new ∧ NewNames ns as new := by
  -- from the right, since the last name is declared behind all others
  induction as using List.reverseRecOn with
  | nil => exact ⟨[], (List.append_nil ns).symm, by simp, .nil⟩
  | append_singleton as a ih =>
    obtain ⟨new, hnew, hmem, horder⟩ := ih
    have hstill : new.Pairwise fun b c => (as ++ [a]).idxOf b < (as ++ [a]).idxOf c := by
      refine horder.imp_of_mem fun {b c} hb hc hlt => ?_
      rwa [List.idxOf_append_of_mem ((hmem b).1 hb).1, List.idxOf_append_of_mem ((hmem c).1 hc).1]
    rw [List.foldl_append, List.foldl_cons, List.foldl_nil, hnew, declareName]
    by_cases ha : a ∈ ns ++ new
    · rw [if_pos ha]
      refine ⟨new, rfl, fun name => ?_, hstill⟩
      rw [hmem, List.mem_append, List.mem_singleton]
      constructor
      · exact fun h => ⟨.inl h.1, h.2⟩
      · rintro ⟨h | rfl, hns⟩
        · exact ⟨h, hns⟩
        · exact (hmem name).1 ((List.mem_append.1 ha).resolve_left hns)
    · rw [if_neg ha, List.append_assoc]
      rw [List.mem_append, not_or] at ha
      have hfresh : a ∉ as := fun has => ha.2 ((hmem a).2 ⟨has, ha.1⟩)
      refine ⟨new ++ [a], rfl, fun name => ?_, ?_⟩
      · simp only [List.mem_append, List.mem_singleton, hmem]
        constructor
        · rintro (h | rfl)
          · exact ⟨.inl h.1, h.2⟩
          · exact ⟨.inr rfl, ha.1⟩
        · rintro ⟨h | h, hns⟩
          · exact .inl ⟨h, hns⟩
          · exact .inr h
      · refine List.pairwise_append.2 ⟨hstill, List.pairwise_singleton _ a, fun b hb c hc => ?_⟩
        have hbs := ((hmem b).1 hb).1
        rw [List.mem_singleton.1 hc, List.idxOf_append_of_mem hbs,
          List.idxOf_append_of_notMem hfresh]
        have := List.idxOf_lt_length_of_mem hbs
        omega

/-! ### Moved code -/

/-- The line with code of `base` bytes put in front: a jump goes further by as
many bytes. -/
def Line.moved (base : Nat) (l : Line) : Line :=
  if l.opcode.isJump then { l with word := (l.word.toNat + base).toUInt32 } else l

def Site.moved (base : Nat) (s : Site) : Site := ⟨s.offset + base, s.names⟩

def Exits.moved (base : Nat) (exits : Exits) : Exits :=
  ⟨exits.onTrue + base, exits.onFalse + base⟩

section Moved

variable {base : Nat}

theorem Line.moved_jump {op : Opcode} (h : op.isJump = true) (target : Nat) :
    Line.moved base ⟨op, target.toUInt32⟩ = ⟨op, (target + base).toUInt32⟩ := by
  have hword : (target.toUInt32.toNat + base).toUInt32 = (target + base).toUInt32 := by
    apply UInt32.toNat_inj.1
    simp [Nat.toUInt32_eq, UInt32.toNat_ofNat']
  rw [Line.moved, if_pos h, hword]

theorem Line.moved_skip (target : Nat) :
    Line.moved base ⟨.jump, target.toUInt32⟩ = ⟨.jump, (target + base).toUInt32⟩ :=
  Line.moved_jump rfl target

/-- A line that is no jump stays as it is. -/
theorem Line.moved_of_not_jump {l : Line} (h : l.opcode.operandKind ≠ .target) :
    l.moved base = l := if_neg fun hjump => h (of_decide_eq_true hjump)

theorem Line.moved_push (word : UInt32) : Line.moved base ⟨.push, word⟩ = ⟨.push, word⟩ :=
  Line.moved_of_not_jump (by simp [Opcode.operandKind])

theorem Site.moved_after (s : Site) (f : Footprint) :
    (s.moved base).after f = (s.after f).moved base := by
  simp only [Site.moved, Site.after, Nat.add_right_comm]

theorem Exits.away_moved (exits : Exits) (junction : Junction) :
    (exits.moved base).away junction = exits.away junction + base := by
  cases junction <;> rfl

theorem Exits.through_moved (exits : Exits) (junction : Junction) :
    (exits.moved base).through junction = exits.through junction + base := by
  cases junction <;> rfl

theorem Exits.left_moved (exits : Exits) (rightStart : Nat) (junction : Junction) :
    (exits.moved base).left (rightStart + base) junction =
      (exits.left rightStart junction).moved base := by
  cases junction <;> rfl

end Moved

/-- The lines of a segment further on are its lines moved. -/
def Segment.Moves (g : Segment) : Prop :=
  ∀ (base : Nat) (s : Site), g.lines (s.moved base) = (g.lines s).map (Line.moved base)

/-- The lines of a condition further on, with exits further on, are its lines
moved. -/
def JumpSegment.Moves (c : JumpSegment) : Prop :=
  ∀ (base : Nat) (exits : Exits) (s : Site),
    c.lines (exits.moved base) (s.moved base) = (c.lines exits s).map (Line.moved base)

/-- One line that is no jump, and that is the same at every offset. -/
theorem Segment.Moves.of_line {g : Segment}
    (h : ∀ s : Site, ∃ l, l.opcode.operandKind ≠ .target ∧
      ∀ offset, g.lines ⟨offset, s.names⟩ = [l]) : g.Moves := by
  intro base s
  obtain ⟨l, hkind, hl⟩ := h s
  rw [Site.moved, hl, show g.lines s = [l] from hl s.offset, List.map_singleton,
    Line.moved_of_not_jump hkind]

theorem Segment.Moves.read (name : String) : (Segment.read name).Moves := by
  refine .of_line fun s => ?_
  by_cases h : name ∈ s.names
  · exact ⟨⟨.loadField, (slotFor s.names name).toUInt32⟩, by simp [Opcode.operandKind],
      fun _ => if_pos h⟩
  · exact ⟨⟨.push, Single.zero.bits⟩, by simp [Opcode.operandKind], fun _ => if_neg h⟩

theorem Segment.Moves.seq {a b : Segment} (ha : a.Moves) (hb : b.Moves) : (a.seq b).Moves := by
  intro base s
  simp only [Segment.seq, ha base s, Site.moved_after, hb base (s.after a), List.map_append]

theorem Segment.Moves.truthValue {c : JumpSegment} (hc : c.Moves) :
    (Segment.truthValue c).Moves := by
  intro base s
  have hstart : (s.moved base).offset + c.size = s.offset + c.size + base := Nat.add_right_comm ..
  have hlines := hc base ⟨s.offset + c.size, s.offset + c.size + 10⟩ s
  rw [Exits.moved] at hlines
  simp only [Segment.truthValue, hstart, Nat.add_right_comm _ base, hlines, List.map_append,
    List.map_cons, List.map_nil, Line.moved_push, Line.moved_skip]

theorem Segment.Moves.conditional {c : JumpSegment} {g : Segment} (hc : c.Moves) (hg : g.Moves) :
    (Segment.conditional c g).Moves := by
  intro base s
  have hstart : (s.moved base).offset + c.size = s.offset + c.size + base := Nat.add_right_comm ..
  have hlines := hc base ⟨s.offset + c.size, s.offset + c.size + g.size + 5⟩ s
  rw [Exits.moved] at hlines
  simp only [Segment.conditional, hstart, Nat.add_right_comm _ base, hlines, Site.moved_after,
    hg base (s.after c), List.map_append, List.map_cons, List.map_nil,
    Line.moved_skip]

theorem JumpSegment.Moves.test (op : CmpOp) (junction : Junction) :
    (JumpSegment.test op junction).Moves := by
  intro base exits s
  simp only [JumpSegment.test, Exits.away_moved, List.map_singleton,
    Line.moved_jump (op.isJump_testOpcode junction)]

theorem JumpSegment.Moves.behind {a : Segment} {c : JumpSegment} (ha : a.Moves) (hc : c.Moves) :
    (JumpSegment.behind a c).Moves := by
  intro base exits s
  simp only [JumpSegment.behind, ha base s, Site.moved_after, hc base exits (s.after a),
    List.map_append]

theorem JumpSegment.Moves.branch (junction : Junction) {l r : JumpSegment} (hl : l.Moves)
    (hr : r.Moves) : (JumpSegment.branch junction l r).Moves := by
  intro base exits s
  have hstart : (s.moved base).offset + l.size = s.offset + l.size + base := Nat.add_right_comm ..
  simp only [JumpSegment.branch, hstart, Exits.left_moved, hl base _ s, Site.moved_after,
    hr base exits (s.after l), Exits.through_moved, List.map_append, List.map_cons, List.map_nil,
    Line.moved_skip]

theorem moves_rules : Layout.Rules Segment.Moves JumpSegment.Moves where
  empty _ _ := rfl
  push _ := .of_line fun _ => ⟨_, by simp [Opcode.operandKind], fun _ => rfl⟩
  emit h := .of_line fun _ => ⟨_, by simp [h], fun _ => rfl⟩
  read := .read
  access {op} name h := .of_line fun s =>
    ⟨⟨op, (slotFor s.names name).toUInt32⟩, by simp [h], fun _ => rfl⟩
  seq := .seq
  unknownCall _ := .of_line fun _ => ⟨_, by simp [Opcode.operandKind], fun _ => rfl⟩
  faulty _ h := h
  truthValue := .truthValue
  conditional := .conditional
  test := .test
  behind := .behind
  branch := .branch

/-! ### Whole programs -/

theorem Line.exists_instr_of_mem {ls : List Line} {l : Line} (h : l ∈ ls) (offset : Nat) :
    ∃ at', l.instr at' ∈ instrsAt offset ls := by
  induction ls generalizing offset with
  | nil => exact absurd h List.not_mem_nil
  | cons m ls ih =>
    rcases List.mem_cons.1 h with rfl | h
    · exact ⟨offset, List.mem_cons_self ..⟩
    · obtain ⟨at', hat⟩ := ih h (offset + m.opcode.length)
      exact ⟨at', List.mem_cons_of_mem _ hat⟩

namespace Expr

section LaidOut

variable (e : Expr) (c : Chunk)

/-- The code of a tree laid out behind other code is that of the tree laid out
alone, moved. -/
theorem toList_code_behind :
    (e.laidOut c).code.toList = c.code.toList ++
      Line.encode ((e.program.lines ⟨0, c.names⟩).map (Line.moved c.size)) := by
  have hmoves := e.program_all moves_rules c.size ⟨0, c.names⟩
  rw [Site.moved, Nat.zero_add] at hmoves
  rw [laidOut, Array.toList_appendList, hmoves]

theorem size_behind : (e.laidOut c).code.size = c.size + e.program.size := by
  rw [laidOut, ← Array.length_toList, Array.toList_appendList, List.length_append,
    Line.length_encode, e.program.total_lines, Array.length_toList]
  rfl

/-- The fields of a laid out tree are those before it and the names that it
assigns, where they are new. -/
theorem toList_fields_laidOut :
    ∃ new, (e.laidOut c).fields.toList = c.fields.toList ++ new.map Field.blank ∧
      NewNames c.names e.assigned new := by
  obtain ⟨new, hnew, hnames⟩ := newNames_foldl c.names e.assigned
  obtain ⟨rest, hrest⟩ := Field.Backs.of_declareAll e.program.assigned c.fields.toList
  refine ⟨new, ?_, hnames⟩
  have hassigned : SameNames e.program.assigned e.assigned :=
    e.implements.statement.names.append_nil
  have heq : c.names ++ rest = c.names ++ new := by
    rw [← hnew, ← hassigned c.names, ← c.names_declareAll, Chunk.names, Chunk.names,
      Chunk.declareAll, List.toList_toArray, hrest, Field.names_append, Field.names_map_blank]
  rw [List.append_cancel_left heq] at hrest
  exact hrest

/-- Without a fault, the jumps of a tree go to places in its own code. -/
theorem target_lt_size (hfault : e.program.fault = none) (hsize : e.program.size < UInt32.size)
    {l : Line} (hl : l ∈ e.program.lines ⟨0, c.names⟩) (hjump : l.opcode.isJump = true) :
    l.word.toNat < e.program.size := by
  have hbare : Chunk.code { c with code := #[] } = #[] := rfl
  have hsize' := e.size_laidOut hbare
  obtain ⟨is, w, hw⟩ := (Chunk.verify_eq_ok_iff _).1 (verify_laidOut (e := e) hbare hfault (by
    rwa [← Chunk.size, hsize']))
  obtain rfl : Line.instrsAt 0 (e.program.lines ⟨0, c.names⟩) = is :=
    Except.ok.inj ((e.instrs?_laidOut hbare).symm.trans hw.decode)
  obtain ⟨offset, hmem⟩ := Line.exists_instr_of_mem hl 0
  obtain ⟨j, hj, htarget⟩ :=
    ((Chunk.checkOperand_iff hw.decode hmem).1 (hw.operands _ hmem)).1 hjump
  have hlt : j.offset < (e.laidOut { c with code := #[] }).size :=
    Instr.lt_size_of_decodeAt ((Chunk.contiguous_of_instrs? hw.decode).2 j hj)
  rw [Line.target?_instr, if_pos (of_decide_eq_true hjump), Option.some.injEq] at htarget
  rwa [hsize', ← htarget] at hlt

end LaidOut

theorem exists_result_iff (e : Expr) (c : Chunk) :
    (∃ f, (e.compileInto c).result = .ok f) ↔ e.program.fault = none := by
  constructor
  · rintro ⟨f, hf⟩
    exact (eq_laidOut_of_result hf).1
  · intro hfault
    exact ⟨e.laidOut c, by rw [compileInto_eq hfault]⟩

/-- The code of a laid out tree depends on the names of the fields in front of it
and not on their values. -/
theorem code_laidOut_congr (e : Expr) {c d : Chunk} (hcode : d.code = c.code)
    (hnames : d.names = c.names) : (e.laidOut d).code = (e.laidOut c).code := by
  simp only [laidOut, Chunk.size, hcode, hnames]

/-- **Compiling behind existing code moves the new code and touches nothing else.**
A tree compiles behind any code if and only if it compiles alone.  The code is
then the code in front, as it was, and the code of the tree alone with every jump
target further by the bytes in front.  The fields are those in front, as they
were, and then the names that the tree assigns, each once, in the order of their
first assignments and with the value zero.  The values of the fields in front have
no part in the code. -/
theorem compileInto_behind (e : Expr) (c : Chunk) :
    ((∃ f, (e.compileInto c).result = .ok f) ↔
        ∃ f, (e.compileInto { c with code := #[] }).result = .ok f) ∧
      (∀ f alone, (e.compileInto c).result = .ok f →
        (e.compileInto { c with code := #[] }).result = .ok alone → f.code.size < UInt32.size →
          (∃ ls, alone.instrs? = .ok (Line.instrsAt 0 ls) ∧ alone.code.toList = Line.encode ls ∧
            f.code.toList = c.code.toList ++ Line.encode (ls.map (Line.moved c.size)) ∧
            ∀ l ∈ ls, l.opcode.isJump = true →
              (l.moved c.size).word.toNat = l.word.toNat + c.size) ∧
          ∃ new, f.fields.toList = c.fields.toList ++ new.map Field.blank ∧ new.Nodup ∧
            NewNames c.names e.assigned new) ∧
      ∀ d : Chunk, d.code = c.code → d.names = c.names →
        (e.compileInto d).result.map Chunk.code = (e.compileInto c).result.map Chunk.code := by
  refine ⟨by rw [exists_result_iff, exists_result_iff], fun f alone hf halone hsize => ?_,
    fun d hcode hnames => ?_⟩
  · obtain ⟨hfault, rfl⟩ := eq_laidOut_of_result hf
    obtain ⟨-, rfl⟩ := eq_laidOut_of_result halone
    rw [e.size_behind c] at hsize
    obtain ⟨new, hfields, hnew⟩ := e.toList_fields_laidOut c
    refine ⟨⟨e.program.lines ⟨0, c.names⟩, e.instrs?_laidOut rfl, e.toList_code_laidOut rfl,
      e.toList_code_behind c, fun l hl hjump => ?_⟩, new, hfields, hnew.nodup, hnew⟩
    have hlt := e.target_lt_size c hfault (by omega) hl hjump
    rw [Line.moved, if_pos hjump]
    exact toNat_target (by omega)
  · rw [result_compileInto, result_compileInto]
    cases e.program.fault with
    | some fault => rfl
    | none => exact congrArg Except.ok (e.code_laidOut_congr hcode hnames)

/-- `if (a < 1 || b) { x = noise(y = 1); a = x; }`, where `noise` is no function. -/
def unknownCallInBody : Expr :=
  conditional (or (cmp .lt (ident "a") (literal Single.one)) (ident "b"))
    (block [assign "x" (call "noise" [assign "y" (literal Single.one)]), assign "a" (ident "x")])

/-- Behind bytes that are no instructions, its jumps go two bytes further.  The
argument of the unknown call declares nothing. -/
theorem behind_unknownCallInBody :
    ∃ f alone, (unknownCallInBody.compileInto ⟨#[255, 8], #[⟨"a", Single.nan⟩]⟩).result = .ok f ∧
      (unknownCallInBody.compileInto ⟨#[], #[⟨"a", Single.nan⟩]⟩).result = .ok alone ∧
      f.code.size < UInt32.size ∧
      (∃ ls, alone.code.toList = Line.encode ls ∧
        f.code.toList = [255, 8] ++ Line.encode (ls.map (Line.moved 2))) ∧
      ∃ new, f.fields.toList = ⟨"a", Single.nan⟩ :: new.map Field.blank ∧
        NewNames ["a"] ["x", "a"] new := by
  have hbehind := compileInto_behind unknownCallInBody ⟨#[255, 8], #[⟨"a", Single.nan⟩]⟩
  have hf : (unknownCallInBody.compileInto ⟨#[255, 8], #[⟨"a", Single.nan⟩]⟩).result =
      .ok (unknownCallInBody.laidOut ⟨#[255, 8], #[⟨"a", Single.nan⟩]⟩) := by
    rw [result_compileInto]
    rfl
  obtain ⟨alone, halone⟩ := hbehind.1.1 ⟨_, hf⟩
  have hsize : (unknownCallInBody.laidOut ⟨#[255, 8], #[⟨"a", Single.nan⟩]⟩).code.size <
      UInt32.size := by decide
  obtain ⟨⟨ls, -, hls, hcode, -⟩, new, hfields, -, hnew⟩ := hbehind.2.1 _ alone hf halone hsize
  exact ⟨_, alone, hf, halone, hsize, ⟨ls, hls, hcode⟩, new, hfields, hnew⟩

end Expr
end FieldScript
