/-
# Lines of code

A *line* is an instruction as it is written: its opcode and the word behind
it.  A line has no offset, so code can be put together from lists of lines, and
every line is well formed: the word is written if the opcode takes an operand
and means nothing otherwise.

`encode` writes lines as bytes and `instrsAt` numbers them from an offset on.
Decoding undoes both: in code that holds `encode ls` from an offset on, the
instructions there are `instrsAt offset ls` (`holds_encode`), and the linear
decode of such code is exactly that row (`decodeFrom_encode`).  The other way
around, every instruction that can be decoded is the instruction of a line, so
its operand has the kind that its opcode asks for (`exists_line_of_decodeAt`).
-/

import FieldScript.Chunk

namespace FieldScript

/-- An instruction as it is written. -/
structure Line where
  opcode : Opcode
  /-- The operand as a word; without meaning if the opcode takes none. -/
  word : UInt32
deriving DecidableEq, Inhabited

namespace Line

/-- The bytes of a line. -/
def bytes (l : Line) : List UInt8 :=
  l.opcode.toByte :: if l.opcode.operandKind = .none then [] else Word.bytes l.word

/-- The line as an instruction at an offset. -/
def instr (offset : Nat) (l : Line) : Instr :=
  ⟨offset, l.opcode, Operand.ofWord? l.word l.opcode.operandKind⟩

/-- The bytes of lines one after the other. -/
def encode (ls : List Line) : List UInt8 := ls.flatMap bytes

/-- The number of bytes of lines. -/
def total : List Line → Nat
  | [] => 0
  | l :: ls => l.opcode.length + total ls

/-- The instructions of lines that start at an offset. -/
def instrsAt : Nat → List Line → List Instr
  | _, [] => []
  | offset, l :: ls => l.instr offset :: instrsAt (offset + l.opcode.length) ls

@[simp] theorem instr_opcode (offset : Nat) (l : Line) : (l.instr offset).opcode = l.opcode := rfl

@[simp] theorem instr_next (offset : Nat) (l : Line) :
    (l.instr offset).next = offset + l.opcode.length := rfl

theorem target?_instr (offset : Nat) (l : Line) :
    (l.instr offset).target? =
      if l.opcode.operandKind = .target then some l.word.toNat else none := by
  cases h : l.opcode.operandKind <;> simp [Instr.target?, instr, Opcode.isJump, h, Operand.ofWord?]

theorem length_bytes (l : Line) : l.bytes.length = l.opcode.length := by
  unfold bytes Opcode.length
  split <;> rfl

@[simp] theorem encode_nil : encode [] = [] := rfl

@[simp] theorem encode_cons (l : Line) (ls : List Line) :
    encode (l :: ls) = l.bytes ++ encode ls := rfl

@[simp] theorem encode_append (ls ms : List Line) : encode (ls ++ ms) = encode ls ++ encode ms := by
  rw [encode, List.flatMap_append]
  rfl

@[simp] theorem total_nil : total [] = 0 := rfl

@[simp] theorem total_cons (l : Line) (ls : List Line) :
    total (l :: ls) = l.opcode.length + total ls := rfl

@[simp] theorem total_append (ls ms : List Line) : total (ls ++ ms) = total ls + total ms := by
  induction ls with
  | nil => rw [List.nil_append, total_nil, Nat.zero_add]
  | cons l ls ih => rw [List.cons_append, total_cons, ih, total_cons, Nat.add_assoc]

theorem length_encode (ls : List Line) : (encode ls).length = total ls := by
  induction ls with
  | nil => rfl
  | cons l ls ih => rw [encode_cons, List.length_append, length_bytes, ih, total_cons]

@[simp] theorem instrsAt_nil (offset : Nat) : instrsAt offset [] = [] := rfl

@[simp] theorem instrsAt_cons (offset : Nat) (l : Line) (ls : List Line) :
    instrsAt offset (l :: ls) = l.instr offset :: instrsAt (offset + l.opcode.length) ls := rfl

theorem instrsAt_append (offset : Nat) (ls ms : List Line) :
    instrsAt offset (ls ++ ms) = instrsAt offset ls ++ instrsAt (offset + total ls) ms := by
  induction ls generalizing offset with
  | nil => rfl
  | cons l ls ih =>
    rw [List.cons_append, instrsAt_cons, ih, instrsAt_cons, List.cons_append, total_cons,
      Nat.add_assoc]

/-! ### Decoding lines -/

/-- The word behind the opcode is read back. -/
theorem wordAt?_of_toList {code : Array UInt8} {front tail : List UInt8} {w : UInt32}
    (h : code.toList = front ++ Word.bytes w ++ tail) :
    Instr.wordAt? code front.length = some w := by
  have hget : ∀ k, k < 4 → code[front.length + k]? = (Word.bytes w)[k]? := by
    intro k hk
    rw [← Array.getElem?_toList, h, List.append_assoc, List.getElem?_append_right (by omega),
      List.getElem?_append_left (by rw [Word.length_bytes]; omega)]
    congr 1
    omega
  have hread := Word.read?_bytes_append w []
  have h0 := hget 0 (by omega)
  have h1 := hget 1 (by omega)
  have h2 := hget 2 (by omega)
  have h3 := hget 3 (by omega)
  simp only [Word.bytes, Nat.add_zero, List.getElem?_cons_zero, List.getElem?_cons_succ] at h0 h1 h2 h3
  simp only [Instr.wordAt?, h0, h1, h2, h3, Option.bind_eq_bind, Option.bind_some]
  simp only [Word.bytes, List.cons_append, List.nil_append, Word.read?, Option.some.injEq,
    Prod.mk.injEq, and_true] at hread
  exact congrArg some hread

/-- **A written line decodes to its instruction.** -/
theorem decodeAt_of_toList {code : Array UInt8} {front tail : List UInt8} {l : Line}
    (h : code.toList = front ++ l.bytes ++ tail) :
    Instr.decodeAt code front.length = .ok (l.instr front.length) := by
  have hop : code[front.length]? = some l.opcode.toByte := by
    rw [← Array.getElem?_toList, h, List.append_assoc, List.getElem?_append_right (by omega),
      Nat.sub_self]
    rfl
  simp only [Instr.decodeAt, hop, Opcode.ofByte?_toByte]
  by_cases hkind : l.opcode.operandKind = .none
  · rw [if_pos hkind, instr, hkind]
    rfl
  · have hword : Instr.wordAt? code (front.length + 1) = some l.word := by
      have hfront : front.length + 1 = (front ++ [l.opcode.toByte]).length := by
        rw [List.length_append, List.length_singleton]
      have hcode : code.toList = front ++ [l.opcode.toByte] ++ Word.bytes l.word ++ tail := by
        rw [h, bytes, if_neg hkind, List.append_assoc front [_], List.singleton_append]
      rw [hfront]
      exact wordAt?_of_toList hcode
    rw [if_neg hkind, hword]
    rfl

/-- The code decodes to the given instructions at the offsets they carry. -/
def Holds (code : Array UInt8) (is : List Instr) : Prop :=
  ∀ i ∈ is, Instr.decodeAt code i.offset = .ok i

theorem Holds.append_iff {code : Array UInt8} {is js : List Instr} :
    Holds code (is ++ js) ↔ Holds code is ∧ Holds code js := by
  simp only [Holds, List.mem_append, or_imp, forall_and]

theorem Holds.cons_iff {code : Array UInt8} {i : Instr} {is : List Instr} :
    Holds code (i :: is) ↔ Holds code [i] ∧ Holds code is := by
  rw [← Holds.append_iff, List.singleton_append]

/-- **Encoded lines decode to their instructions,** wherever they stand. -/
theorem holds_encode {code : Array UInt8} {front tail : List UInt8} {ls : List Line}
    (h : code.toList = front ++ encode ls ++ tail) : Holds code (instrsAt front.length ls) := by
  induction ls generalizing front with
  | nil => exact fun i hi => absurd hi List.not_mem_nil
  | cons l ls ih =>
    intro i hi
    rw [instrsAt_cons, List.mem_cons] at hi
    rcases hi with rfl | hi
    · have hcode : code.toList = front ++ l.bytes ++ (encode ls ++ tail) := by
        rw [h, encode_cons, List.append_assoc, List.append_assoc, List.append_assoc]
      exact decodeAt_of_toList hcode
    · have hfront : front.length + l.opcode.length = (front ++ l.bytes).length := by
        rw [List.length_append, length_bytes]
      have hcode : code.toList = front ++ l.bytes ++ encode ls ++ tail := by
        rw [h, encode_cons, ← List.append_assoc front]
      rw [hfront] at hi
      exact ih hcode i hi

/-- **The linear decode of encoded lines is the row of their instructions.** -/
theorem decodeFrom_encode {code : Array UInt8} {front : List UInt8} {ls : List Line}
    (h : code.toList = front ++ encode ls) :
    Instr.decodeFrom code front.length = (instrsAt front.length ls, none) := by
  induction ls generalizing front with
  | nil =>
    have hsize : ¬ front.length < code.size := by
      rw [← Array.length_toList, h, encode_nil, List.append_nil]
      omega
    rw [Instr.decodeFrom, if_neg hsize]
    rfl
  | cons l ls ih =>
    have hsize : front.length < code.size := by
      have := l.opcode.length_pos
      rw [← Array.length_toList, h, List.length_append, length_encode, total_cons]
      omega
    have hdec : Instr.decodeAt code front.length = .ok (l.instr front.length) := by
      have hcode : code.toList = front ++ l.bytes ++ encode ls := by
        rw [h, encode_cons, List.append_assoc]
      exact decodeAt_of_toList hcode
    have hrest : Instr.decodeFrom code (front.length + l.opcode.length) =
        (instrsAt (front.length + l.opcode.length) ls, none) := by
      have hfront : front.length + l.opcode.length = (front ++ l.bytes).length := by
        rw [List.length_append, length_bytes]
      rw [hfront]
      apply ih
      rw [h, encode_cons, List.append_assoc]
    rw [Instr.decodeFrom, if_pos hsize, hdec]
    simp only [instr_opcode, hrest, instrsAt_cons]

end Line

/-! ### Decoded instructions -/

theorem Instr.le_size_of_wordAt? {code : Array UInt8} {offset : Nat} {w : UInt32}
    (h : Instr.wordAt? code offset = some w) : offset + 4 ≤ code.size := by
  simp only [Instr.wordAt?, Option.bind_eq_bind, Option.bind_eq_some_iff] at h
  obtain ⟨_, _, _, _, _, _, d, hd, _⟩ := h
  obtain ⟨hlt, _⟩ := Array.getElem?_eq_some_iff.1 hd
  omega

/-- **What can be decoded is a line,** and the code holds all of it. -/
theorem Instr.exists_line_of_decodeAt {code : Array UInt8} {offset : Nat} {i : Instr}
    (h : Instr.decodeAt code offset = .ok i) :
    ∃ l : Line, i = l.instr offset ∧ offset + l.opcode.length ≤ code.size := by
  unfold Instr.decodeAt at h
  split at h
  · simp at h
  · rename_i byte hbyte
    obtain ⟨hlt, _⟩ := Array.getElem?_eq_some_iff.1 hbyte
    split at h
    · simp at h
    · rename_i op _
      split at h
      · rename_i hkind
        refine ⟨⟨op, 0⟩, (Except.ok.inj h).symm.trans ?_, ?_⟩
        · rw [Line.instr, hkind]
          rfl
        · rw [Opcode.length, if_pos hkind]
          exact hlt
      · rename_i hkind
        split at h
        · simp at h
        · rename_i w hword
          refine ⟨⟨op, w⟩, (Except.ok.inj h).symm, ?_⟩
          have := le_size_of_wordAt? hword
          rw [Opcode.length, if_neg hkind]
          omega

theorem Instr.offset_of_decodeAt {code : Array UInt8} {offset : Nat} {i : Instr}
    (h : Instr.decodeAt code offset = .ok i) : i.offset = offset := by
  obtain ⟨l, rfl, _⟩ := exists_line_of_decodeAt h
  rfl

theorem Instr.next_le_of_decodeAt {code : Array UInt8} {offset : Nat} {i : Instr}
    (h : Instr.decodeAt code offset = .ok i) : i.next ≤ code.size := by
  obtain ⟨l, rfl, hle⟩ := exists_line_of_decodeAt h
  exact hle

theorem Instr.lt_size_of_decodeAt {code : Array UInt8} {offset : Nat} {i : Instr}
    (h : Instr.decodeAt code offset = .ok i) : offset < code.size := by
  obtain ⟨l, _, hle⟩ := exists_line_of_decodeAt h
  have := l.opcode.length_pos
  omega

end FieldScript
