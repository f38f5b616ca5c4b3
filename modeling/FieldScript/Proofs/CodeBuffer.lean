/-
# The code of a chunk is a list of instructions

Code grows by appended instructions and changes by patched jumps.  Seen from
outside, each call edits a list of lines: an append puts a line behind the
others, and a patch replaces the word of one line.  The bytes of the code are
the encoded list throughout (`Lists`), because a patch writes over exactly the
four bytes behind an opcode and so leaves every other line where it was.  One
call keeps this (`Lists.perform`), and by induction a row of calls does
(`Lists.run`).

What the list holds in the end is read off the calls: the opcodes of the appends
in order, and behind each one its operand or the last target that was patched
in.  The other way around, the bytes of a decoded instruction are those of its
line, so appending what was decoded writes the same bytes again
(`Instr.drop_of_decodeFrom`).
-/

import FieldScript.Proofs.Backpatching
import FieldScript.Proofs.InstrRow
import Mathlib.Algebra.GroupWithZero.Nat

namespace FieldScript

/-! ### Calls -/

/-- A call that changes the code of a chunk. -/
inductive Call where
  /-- Appends an instruction. -/
  | append (opcode : Opcode) (operand : Option Operand)
  /-- Turns the jump of the append number `k`, counted from zero, at the label
  that this append returned. -/
  | patch (k : Nat) (target : UInt32)
deriving DecidableEq, Inhabited

/-- Whether an operand is of the kind that an opcode takes. -/
def Operand.hasKind : Operand → OperandKind → Bool
  | number _, .number => true
  | offset _, .target => true
  | offset _, .field => true
  | _, _ => false

namespace Call

/-- Makes a call, after appends that returned `labels`, and gives the labels of
all appends. -/
def perform (labels : List Nat) : Call → Chunk.Edit (List Nat)
  | append opcode operand => do return labels ++ [← Chunk.Edit.append opcode operand]
  | patch k target => do
    match labels[k]? with
    | some label => Chunk.Edit.patch label target.toNat
    | none => throw .outOfBounds
    return labels

/-- Makes the calls in order and gives the labels of the appends. -/
def run (calls : List Call) : Chunk.Edit (List Nat) := calls.foldlM perform []

/-- Whether a call keeps to the rules, after appends of the given opcodes: an
operand has the kind that the opcode takes or is missing, and what is patched is
a jump that was appended. -/
def allowed (done : List Opcode) : Call → Bool
  | append opcode operand => operand.all (·.hasKind opcode.operandKind)
  | patch k _ => done[k]?.any Opcode.isJump

/-- The opcodes and operands that are appended, with zeros for the operands that
are missing. -/
def appended : List Call → List (Opcode × Option Operand)
  | [] => []
  | append opcode operand :: calls =>
    (opcode, operand.or (Operand.ofWord? 0 opcode.operandKind)) :: appended calls
  | patch _ _ :: calls => appended calls

/-- The opcodes that are appended. -/
def opcodes (calls : List Call) : List Opcode := (appended calls).map Prod.fst

/-- Whether calls after appends of the given opcodes keep to the rules. -/
def proper : List Opcode → List Call → Bool
  | _, [] => true
  | done, call :: calls => call.allowed done && proper (done ++ opcodes [call]) calls

/-- The last target at which the append number `k` is patched. -/
def target? (k : Nat) : List Call → Option UInt32
  | [] => none
  | append _ _ :: calls => target? k calls
  | patch j target :: calls => (target? k calls).or (if j = k then some target else none)

/-- The operands in the end: the last target patched in, or what was appended. -/
def operands (calls : List Call) : List (Option Operand) :=
  ((appended calls).map Prod.snd).mapIdx fun k operand =>
    ((target? k calls).map .offset).or operand

/-! ### Calls as edits of a list -/

/-- The line that an append writes. -/
def line (opcode : Opcode) (operand : Option Operand) : Line :=
  ⟨opcode, (operand.map Operand.word).getD 0⟩

/-- The list of lines after a call. -/
def edit (ls : List Line) : Call → List Line
  | append opcode operand => ls ++ [line opcode operand]
  | patch k target => ls.modify k fun l => { l with word := target }

end Call

/-- The operand of a line. -/
def Line.operand (l : Line) : Option Operand := Operand.ofWord? l.word l.opcode.operandKind

theorem Line.length_instrsAt (offset : Nat) (ls : List Line) :
    (Line.instrsAt offset ls).length = ls.length := by
  induction ls generalizing offset with
  | nil => rfl
  | cons l ls ih => rw [Line.instrsAt_cons, List.length_cons, ih, List.length_cons]

namespace Call

theorem operand_line {opcode : Opcode} {operand : Option Operand}
    (h : operand.all (·.hasKind opcode.operandKind) = true) :
    (line opcode operand).operand = operand.or (Operand.ofWord? 0 opcode.operandKind) := by
  cases operand with
  | none => rfl
  | some operand =>
    rw [Option.all_some] at h
    rw [Option.some_or, Line.operand, line]
    cases hkind : opcode.operandKind <;> cases operand <;> rw [hkind] at h <;> first | rfl | cases h

end Call

/-- A chunk lists lines and the labels at which they start. -/
structure Lists (ls : List Line) (labels : List Nat) (c : Chunk) : Prop where
  code : c.code.toList = Line.encode ls
  labels : labels = (Line.instrsAt 0 ls).map (·.offset)

namespace Lists

open Call

variable {ls : List Line} {labels : List Nat} {c : Chunk}

theorem size (h : Lists ls labels c) : c.size = Line.total ls := by
  rw [Chunk.size, ← Array.length_toList, h.code, Line.length_encode]

theorem append (h : Lists ls labels c) {opcode : Opcode} {operand : Option Operand}
    (hkind : operand.all (·.hasKind opcode.operandKind) = true) :
    ∃ labels' c', perform labels (.append opcode operand) c = .ok labels' c' ∧
      Lists (edit ls (.append opcode operand)) labels' c' := by
  have hline : operand = Operand.ofWord? (line opcode operand).word opcode.operandKind ∨
      operand = none ∧ (line opcode operand).word = 0 := by
    have hoperand := operand_line hkind
    cases operand with
    | none => exact .inr ⟨rfl, rfl⟩
    | some operand => exact .inl hoperand.symm
  have happly := Chunk.Edit.append_apply (line opcode operand) operand c hline
  refine ⟨labels ++ [c.size], _, bind_of_ok happly, ?_, ?_⟩
  · rw [edit, Line.encode_append, ← h.code, Array.toList_appendList]
    simp
  · rw [edit, Line.instrsAt_append, List.map_append, ← h.labels, h.size, Nat.zero_add]
    rfl

/-- Where a line starts does not depend on its word. -/
theorem offsets_instrsAt (front back : List Line) (opcode : Opcode) (v w : UInt32) :
    (Line.instrsAt 0 (front ++ ⟨opcode, v⟩ :: back)).map (·.offset) =
      (Line.instrsAt 0 (front ++ ⟨opcode, w⟩ :: back)).map (·.offset) := by
  rw [Line.instrsAt_append, Line.instrsAt_append, List.map_append, List.map_append]
  rfl

theorem getElem?_offsets (front back : List Line) (l : Line) :
    ((Line.instrsAt 0 (front ++ l :: back)).map (·.offset))[front.length]? =
      some (Line.encode front).length := by
  have hlength : ((Line.instrsAt 0 front).map (·.offset)).length = front.length := by
    rw [List.length_map, Line.length_instrsAt]
  rw [Line.instrsAt_append, List.map_append, ← hlength, List.getElem?_append_right (Nat.le_refl _),
    Nat.sub_self, Line.length_encode, Nat.zero_add]
  rfl

theorem patch (h : Lists ls labels c) {k : Nat} {target : UInt32}
    (hallowed : (ls.map (·.opcode))[k]?.any Opcode.isJump = true) :
    ∃ labels' c', perform labels (.patch k target) c = .ok labels' c' ∧
      Lists (edit ls (.patch k target)) labels' c' := by
  obtain ⟨opcode, hopcode, hjump⟩ := (Option.any_eq_true ..).1 hallowed
  obtain ⟨hlt, hget⟩ := List.getElem?_eq_some_iff.1 hopcode
  rw [List.length_map] at hlt
  rw [List.getElem_map] at hget
  -- The lines in front of the jump, the jump itself, and those behind it.
  obtain ⟨front, w, back, rfl, rfl⟩ :
      ∃ front w back, ls = front ++ ⟨opcode, w⟩ :: back ∧ front.length = k := by
    refine ⟨ls.take k, ls[k].word, ls.drop (k + 1), ?_, List.length_take_of_le (Nat.le_of_lt hlt)⟩
    rw [← hget, List.getElem_cons_drop, List.take_append_drop]
  have hedit : edit (front ++ ⟨opcode, w⟩ :: back) (.patch front.length target) =
      front ++ ⟨opcode, target⟩ :: back := by
    rw [edit, List.modify_eq_take_cons_drop hlt]
    simp
  have hlabel : labels[front.length]? = some (Line.encode front).length := by
    rw [h.labels, getElem?_offsets]
  have hcode : c.code.toList =
      Line.encode front ++ (opcode.toByte :: Word.bytes w) ++ Line.encode back := by
    rw [h.code, Line.encode_append, Line.encode_cons, Line.bytes_of_isJump hjump, List.append_assoc]
  have hpatch := Chunk.Edit.patch_apply hjump (Word.length_bytes w) hcode target.toNat
  rw [Nat.toUInt32_eq, UInt32.ofNat_toNat] at hpatch
  rw [perform, hlabel, hedit]
  refine ⟨labels, _, bind_of_ok hpatch, ?_, ?_⟩
  · rw [List.toList_toArray, Line.encode_append, Line.encode_cons, List.append_assoc]
  · rw [h.labels, offsets_instrsAt]

/-- **One call edits the list.** -/
theorem perform (h : Lists ls labels c) {call : Call}
    (hallowed : call.allowed (ls.map (·.opcode)) = true) :
    ∃ labels' c', Call.perform labels call c = .ok labels' c' ∧ Lists (edit ls call) labels' c' := by
  cases call with
  | append opcode operand => exact h.append hallowed
  | patch k target => exact h.patch hallowed

end Lists

namespace Call

theorem opcodes_cons (call : Call) (calls : List Call) :
    opcodes (call :: calls) = opcodes [call] ++ opcodes calls := by
  cases call <;> rfl

theorem opcodes_edit (ls : List Line) (call : Call) :
    (edit ls call).map (·.opcode) = ls.map (·.opcode) ++ opcodes [call] := by
  cases call with
  | append opcode operand => rw [edit, List.map_append]; rfl
  | patch k target =>
    refine List.ext_getElem? fun j => ?_
    show ((edit ls (patch k target)).map (·.opcode))[j]? = (ls.map (·.opcode) ++ [])[j]?
    rw [edit, List.getElem?_map, List.getElem?_modify, List.append_nil, List.getElem?_map]
    cases ls[j]? with
    | none => rfl
    | some l => by_cases hk : k = j <;> simp [hk]

end Call

/-- **A row of calls edits the list.** -/
theorem Lists.run {calls : List Call} {ls : List Line} {labels : List Nat} {c : Chunk}
    (h : Lists ls labels c) (hproper : Call.proper (ls.map (·.opcode)) calls = true) :
    ∃ labels' c', calls.foldlM Call.perform labels c = .ok labels' c' ∧
      Lists (calls.foldl Call.edit ls) labels' c' := by
  induction calls generalizing ls labels c with
  | nil => exact ⟨labels, c, rfl, h⟩
  | cons call calls ih =>
    rw [Call.proper, Bool.and_eq_true_iff, ← Call.opcodes_edit] at hproper
    obtain ⟨labels', c', hperform, hlists⟩ := h.perform hproper.1
    obtain ⟨labels'', c'', hrun, hlists⟩ := ih hlists hproper.2
    refine ⟨labels'', c'', ?_, hlists⟩
    rw [List.foldlM_cons, bind_of_ok hperform, hrun]

/-! ### What the list holds -/

namespace Call

/-- A patch replaces one operand of the list, whatever is appended later. -/
theorem operands_edit_patch {ls : List Line} {k : Nat} {target : UInt32}
    (hallowed : allowed (ls.map (·.opcode)) (patch k target) = true) (later : List (Option Operand)) :
    (edit ls (patch k target)).map Line.operand ++ later =
      (ls.map Line.operand ++ later).mapIdx fun j operand =>
        ((if k = j then some target else none).map .offset).or operand := by
  obtain ⟨opcode, hopcode, hjump⟩ := (Option.any_eq_true ..).1 hallowed
  obtain ⟨l, hl, rfl⟩ := Option.map_eq_some_iff.1 (List.getElem?_map.symm.trans hopcode)
  obtain ⟨hlt, -⟩ := List.getElem?_eq_some_iff.1 hl
  have hkind : l.opcode.operandKind = .target := of_decide_eq_true hjump
  refine List.ext_getElem? fun j => ?_
  rw [List.getElem?_mapIdx, List.getElem?_append, List.getElem?_append, List.length_map,
    List.length_map, edit, List.length_modify, List.getElem?_map, List.getElem?_map,
    List.getElem?_modify]
  by_cases hj : k = j
  · rw [← hj, hl, if_pos hlt, if_pos hlt]
    simp [Line.operand, hkind, Operand.ofWord?]
  · simp [hj]

/-- The operands of the list after the calls: what it held before and what was
appended, apart from the targets that were patched in. -/
theorem operands_foldl_edit {calls : List Call} {ls : List Line}
    (hproper : proper (ls.map (·.opcode)) calls = true) :
    (calls.foldl edit ls).map Line.operand =
      (ls.map Line.operand ++ (appended calls).map Prod.snd).mapIdx fun k operand =>
        ((target? k calls).map .offset).or operand := by
  induction calls generalizing ls with
  | nil =>
    refine List.ext_getElem? fun k => ?_
    rw [List.getElem?_mapIdx, appended, List.map_nil, List.append_nil, List.foldl_nil]
    exact Option.map_id'.symm
  | cons call calls ih =>
    rw [proper, Bool.and_eq_true_iff, ← opcodes_edit] at hproper
    rw [List.foldl_cons, ih hproper.2]
    cases call with
    | append opcode operand =>
      rw [edit, List.map_append, List.append_assoc, List.map_singleton, operand_line hproper.1]
      rfl
    | patch k target =>
      rw [operands_edit_patch hproper.1, List.mapIdx_mapIdx, appended]
      congr 1
      funext j operand
      rw [target?, Option.map_or, Option.or_assoc]
      rfl

theorem opcodes_foldl_edit (calls : List Call) (ls : List Line) :
    (calls.foldl edit ls).map (·.opcode) = ls.map (·.opcode) ++ opcodes calls := by
  induction calls generalizing ls with
  | nil => exact (List.append_nil _).symm
  | cons call calls ih =>
    rw [List.foldl_cons, ih, opcodes_edit, List.append_assoc, ← opcodes_cons]

end Call

theorem Line.opcodes_instrsAt (offset : Nat) (ls : List Line) :
    (Line.instrsAt offset ls).map (·.opcode) = ls.map (·.opcode) := by
  induction ls generalizing offset with
  | nil => rfl
  | cons l ls ih => rw [Line.instrsAt_cons, List.map_cons, ih]; rfl

theorem Line.operands_instrsAt (offset : Nat) (ls : List Line) :
    (Line.instrsAt offset ls).map (·.operand) = ls.map Line.operand := by
  induction ls generalizing offset with
  | nil => rfl
  | cons l ls ih => rw [Line.instrsAt_cons, List.map_cons, ih]; rfl

theorem Line.total_eq_sum (ls : List Line) :
    Line.total ls = ((ls.map (·.opcode)).map Opcode.length).sum := by
  induction ls with
  | nil => rfl
  | cons l ls ih => rw [Line.total_cons, ih]; rfl

/-! ### Instructions that are appended again -/

theorem Opcode.toByte_of_ofByte? {b : UInt8} {op : Opcode} (h : ofByte? b = some op) :
    op.toByte = b := by
  have horder : ∀ n : Fin all.length, (all.get n).toByte.toNat = n := by decide
  obtain ⟨hlt, rfl⟩ := List.getElem?_eq_some_iff.1 h
  exact UInt8.toNat_inj.1 (horder ⟨b.toNat, hlt⟩)

namespace Instr

theorem drop_of_getElem? {code : Array UInt8} {offset : Nat} {b : UInt8}
    (h : code[offset]? = some b) :
    code.toList.drop offset = b :: code.toList.drop (offset + 1) := by
  obtain ⟨hlt, rfl⟩ := Array.getElem?_eq_some_iff.1 h
  exact List.drop_eq_getElem_cons (i := offset) hlt

theorem drop_of_wordAt? {code : Array UInt8} {offset : Nat} {w : UInt32}
    (h : wordAt? code offset = some w) :
    code.toList.drop offset = Word.bytes w ++ code.toList.drop (offset + 4) := by
  simp only [wordAt?, Option.bind_eq_bind, Option.bind_eq_some_iff] at h
  obtain ⟨a, ha, b, hb, c, hc, d, hd, hw⟩ := h
  rw [← Option.some.inj hw, Word.bytes_ofBytes, drop_of_getElem? ha, drop_of_getElem? hb,
    drop_of_getElem? hc, drop_of_getElem? hd]
  rfl

/-- The bytes of an instruction that can be decoded are those of its line. -/
theorem drop_of_decodeAt {code : Array UInt8} {offset : Nat} {i : Instr}
    (h : decodeAt code offset = .ok i) :
    code.toList.drop offset =
      (Call.line i.opcode i.operand).bytes ++ code.toList.drop (offset + i.opcode.length) := by
  unfold decodeAt at h
  split at h
  · cases h
  · rename_i byte hbyte
    split at h
    · cases h
    · rename_i op hop
      rw [drop_of_getElem? hbyte, ← Opcode.toByte_of_ofByte? hop]
      split at h
      · rename_i hkind
        cases h
        have hbytes : (Call.line op none).bytes = [op.toByte] := by
          rw [Line.bytes, if_pos (by exact hkind)]
          rfl
        rw [hbytes, Opcode.length, if_pos hkind, List.singleton_append]
      · rename_i hkind
        split at h
        · cases h
        · rename_i w hw
          cases h
          have hword : ((Operand.ofWord? w op.operandKind).map Operand.word).getD 0 = w := by
            cases h : op.operandKind <;> first | rfl | exact absurd h hkind
          simp only [Call.line, Line.bytes, Opcode.length, if_neg hkind, hword]
          rw [drop_of_wordAt? hw]
          rfl

/-- Code that can be decoded to its end is the encoded list of what was decoded. -/
theorem drop_of_decodeFrom {code : Array UInt8} {offset : Nat} {is : List Instr}
    (h : decodeFrom code offset = (is, none)) :
    code.toList.drop offset = Line.encode (is.map fun i => Call.line i.opcode i.operand) := by
  fun_induction decodeFrom code offset generalizing is with
  | case1 offset _ e _ => cases h
  | case2 offset _ i hi rest fault hrest ih =>
    cases h
    rw [List.map_cons, Line.encode_cons, ← ih hrest, drop_of_decodeAt hi]
  | case3 offset hsize =>
    cases h
    exact List.drop_of_length_le (Nat.le_of_not_lt hsize)

end Instr

namespace Call

/-- Calls that append instructions. -/
def appendAll (is : List Instr) : List Call := is.map fun i => append i.opcode i.operand

theorem foldl_edit_appendAll (is : List Instr) (ls : List Line) :
    (appendAll is).foldl edit ls = ls ++ is.map fun i => line i.opcode i.operand := by
  induction is generalizing ls with
  | nil => exact (List.append_nil ls).symm
  | cons i is ih => exact (ih _).trans (List.append_assoc ..)

theorem proper_appendAll {is : List Instr}
    (h : ∀ i ∈ is, i.operand.all (·.hasKind i.opcode.operandKind) = true) (done : List Opcode) :
    proper done (appendAll is) = true := by
  induction is generalizing done with
  | nil => rfl
  | cons i is ih =>
    have hrest := ih (fun j hj => h j (List.mem_cons_of_mem i hj)) (done ++ [i.opcode])
    exact Bool.and_eq_true_iff.2 ⟨h i (List.mem_cons_self ..), hrest⟩

end Call

/-- A decoded operand has the kind that its opcode takes. -/
theorem Instr.hasKind_of_decodeAt {code : Array UInt8} {offset : Nat} {i : Instr}
    (h : decodeAt code offset = .ok i) : i.operand.all (·.hasKind i.opcode.operandKind) = true := by
  obtain ⟨l, rfl, -⟩ := exists_line_of_decodeAt h
  show (Operand.ofWord? l.word l.opcode.operandKind).all (·.hasKind l.opcode.operandKind) = true
  cases l.opcode.operandKind <;> rfl

namespace Call

theorem lists_empty : Lists [] [] Chunk.empty := ⟨rfl, rfl⟩

/-- What calls that keep to the rules leave in a new chunk. -/
theorem exists_run {calls : List Call} (hproper : proper [] calls = true) :
    ∃ labels c, run calls Chunk.empty = .ok labels c ∧ Lists (calls.foldl edit []) labels c :=
  lists_empty.run hproper

/-- **Code is a list of instructions.**  Calls that keep to the rules succeed on
a new chunk, and the instructions of its code are then the appended ones in
order: each starts at the label that its append returned, and its operand is the
last target that was patched in, or else the one it was appended with.  The
other way around, appending the instructions of any code again writes that code. -/
theorem run_refines_list :
    (∀ calls, proper [] calls = true → ((opcodes calls).map Opcode.length).sum < UInt32.size →
      ∃ c is, run calls Chunk.empty = .ok (is.map (·.offset)) c ∧ c.instrs = (is, none) ∧
        is.map (·.opcode) = opcodes calls ∧ is.map (·.operand) = operands calls ∧
        c.size = ((opcodes calls).map Opcode.length).sum ∧ ∀ i ∈ is, i.offset < UInt32.size) ∧
      ∀ code is, Instr.decodeFrom code 0 = (is, none) →
        ∃ c, run (appendAll is) Chunk.empty = .ok (is.map (·.offset)) c ∧ c.code = code := by
  constructor
  · intro calls hproper hsize
    obtain ⟨labels, c, hrun, hlists⟩ := exists_run hproper
    have hopcodes : (calls.foldl edit []).map (·.opcode) = opcodes calls :=
      opcodes_foldl_edit calls []
    have htotal : c.size = ((opcodes calls).map Opcode.length).sum := by
      rw [hlists.size, Line.total_eq_sum, hopcodes]
    have hdecode : c.instrs = (Line.instrsAt 0 (calls.foldl edit []), none) :=
      @Line.decodeFrom_encode c.code [] _ hlists.code
    refine ⟨c, _, hlists.labels ▸ hrun, hdecode, ?_, ?_, htotal, fun i hi => ?_⟩
    · rw [Line.opcodes_instrsAt, hopcodes]
    · rw [Line.operands_instrsAt, @operands_foldl_edit calls [] hproper]
      rfl
    · have hlt := Instr.lt_size_of_decodeAt ((Instr.contiguous_of_decodeFrom hdecode).2 i hi)
      exact Nat.lt_trans (htotal ▸ hlt) hsize
  · intro code is hdecode
    have hencode : code.toList = Line.encode (is.map fun i => line i.opcode i.operand) :=
      Instr.drop_of_decodeFrom hdecode
    have hinstrs : is = Line.instrsAt 0 (is.map fun i => line i.opcode i.operand) := by
      have h := @Line.decodeFrom_encode code [] _ hencode
      exact congrArg Prod.fst (hdecode.symm.trans h)
    have hholds := (Instr.contiguous_of_decodeFrom hdecode).2
    obtain ⟨labels, c, hrun, hlists⟩ :=
      exists_run (proper_appendAll (fun i hi => Instr.hasKind_of_decodeAt (hholds i hi)) [])
    have hcode := hlists.code
    have hlabels := hlists.labels
    rw [foldl_edit_appendAll, List.nil_append] at hcode hlabels
    rw [← hinstrs] at hlabels
    exact ⟨c, hlabels ▸ hrun, Array.ext' (hcode.trans hencode.symm)⟩

/-- A loop whose two jumps are patched, one of them twice and across a later
append. -/
def loopCalls : List Call :=
  [append .push (some (.number Single.nan)), append .jumpLt none, patch 1 0, append .loadField none,
    append .jump (some (.offset 7)), patch 1 0x01020304, append .ret none, patch 3 10]

/-- The code of `loopCalls`. -/
def loopCode : Array UInt8 :=
  #[1, 0, 0, 0xc0, 0x7f, 10, 4, 3, 2, 1, 15, 0, 0, 0, 0, 8, 10, 0, 0, 0, 0]

theorem run_loopCalls :
    proper [] loopCalls = true ∧ ((opcodes loopCalls).map Opcode.length).sum < UInt32.size ∧
      (∃ c is, run loopCalls Chunk.empty = .ok (is.map (·.offset)) c ∧ c.instrs = (is, none) ∧
        is.map (·.opcode) = [.push, .jumpLt, .loadField, .jump, .ret] ∧
        is.map (·.operand) = [some (.number Single.nan), some (.offset 0x01020304),
          some (.offset 0), some (.offset 10), none] ∧ c.size = 21) ∧
      (Instr.decodeFrom loopCode 0).2 = none ∧
      ∃ c labels, run (appendAll (Instr.decodeFrom loopCode 0).1) Chunk.empty = .ok labels c ∧
        c.code = loopCode := by
  have hproper : proper [] loopCalls = true := by decide
  have hsize : ((opcodes loopCalls).map Opcode.length).sum < UInt32.size := by decide
  have hfault : (Instr.decodeFrom loopCode 0).2 = none := by decide +kernel
  obtain ⟨c, is, hrun, hinstrs, hopcodes, hoperands, htotal, -⟩ :=
    run_refines_list.1 loopCalls hproper hsize
  obtain ⟨c', hagain, hcode⟩ := run_refines_list.2 loopCode _ (Prod.ext rfl hfault)
  exact ⟨hproper, hsize, ⟨c, is, hrun, hinstrs, hopcodes, hoperands, htotal⟩, hfault, c', _, hagain,
    hcode⟩

end Call
end FieldScript
