/-
# A listing determines the code

The listing of a chunk is read from left to right.  Every part of it ends where
a character follows that cannot stand in it: a number before a blank or a
bracket, a mnemonic before a blank or the end of the line, a tagged number
before the end of the line.  Two parts have no such end and need none.  The name
behind a field's slot may hold any characters, line ends too, but the slot in
front of it says which name it is.  The offset at the start of a line may be
marked or not, but the instructions before it say where it is.

One line is thus read off with all that follows left over (`instrLines_inj`), and
by induction so is the row of lines (`rowText_inj`), which ends at an empty line.
Only the payload of a NaN is not written, so the listing determines the
instructions up to that, and is determined by them (`listing_eq_iff`).
-/

import FieldScript.Chunk.Listing
import FieldScript.Proofs.CodeBuffer
import FieldScript.Proofs.TaggedNumbers

namespace FieldScript

/-! ### Parts of a line -/

namespace Text

variable {m n : Nat} {r s : List Char}

theorem toList_padRight (width : Nat) (s : String) :
    (padRight width s).toList = s.toList ++ List.replicate (width - s.length) ' ' := by
  rw [padRight, String.toList_append, String.toList_ofList]

theorem toList_zeroPad (width n : Nat) : (zeroPad width n).toList =
    List.replicate (width - (toString n).length) '0' ++ Nat.toDigits 10 n := by
  rw [zeroPad, padLeft, String.toList_append, String.toList_ofList]
  simp

theorem all_zeroPad (width n : Nat) : (zeroPad width n).toList.all Char.isDigit = true := by
  rw [toList_zeroPad, List.all_append, Decimal.all_zeros, all_toDigits]
  rfl

/-- **A number with zeros in front is told from what follows it,** unless that is
a digit. -/
theorem zeroPad_append_inj {width : Nat} (hr : r.head?.any Char.isDigit = false)
    (hs : s.head?.any Char.isDigit = false)
    (h : (zeroPad width m).toList ++ r = (zeroPad width n).toList ++ s) : m = n ∧ r = s := by
  obtain ⟨htext, hrest⟩ := append_inj_of_stop (all_zeroPad ..) (all_zeroPad ..) hr hs h
  rw [toList_zeroPad, toList_zeroPad] at htext
  exact ⟨eq_of_zeros_append htext, hrest⟩

theorem toString_append_inj (hr : r.head?.any Char.isDigit = false)
    (hs : s.head?.any Char.isDigit = false)
    (h : (toString m).toList ++ r = (toString n).toList ++ s) : m = n ∧ r = s := by
  have hzero (n : Nat) : (zeroPad 0 n).toList = (toString n).toList := by
    rw [toList_zeroPad, Nat.zero_sub]
    simp
  rw [← hzero, ← hzero] at h
  exact zeroPad_append_inj hr hs h

/-- A part that stays in its line is told from what follows the line. -/
theorem append_newline_inj {a b : List Char} (ha : '\n' ∉ a) (hb : '\n' ∉ b)
    (h : a ++ '\n' :: r = b ++ '\n' :: s) : a = b ∧ r = s := by
  have hall {cs : List Char} (hcs : '\n' ∉ cs) : cs.all (· != '\n') = true := by
    rw [List.all_eq_true]
    rintro c hc
    exact bne_iff_ne.2 fun heq => hcs (heq ▸ hc)
  obtain ⟨hpart, hrest⟩ := append_inj_of_stop (hall ha) (hall hb) rfl rfl h
  exact ⟨hpart, (List.cons.inj hrest).2⟩

theorem head?_blanks (k : Nat) (cs : List Char) :
    (List.replicate k ' ' ++ ' ' :: cs).head? = some ' ' := by
  cases k <;> rfl

/-- The characters of a mnemonic. -/
def isWord (c : Char) : Bool := c != ' ' && c != '\n'

end Text

namespace Opcode

theorem all_mnemonic (op : Opcode) : op.mnemonic.toList.all Text.isWord = true := by
  cases op <;> rfl

theorem find?_mnemonic (op : Opcode) : all.find? (·.mnemonic = op.mnemonic) = some op := by
  cases op <;> rfl

/-- No two opcodes have one mnemonic. -/
theorem mnemonic_inj {a b : Opcode} (h : a.mnemonic.toList = b.mnemonic.toList) : a = b := by
  have hfind := a.find?_mnemonic
  rw [String.toList_inj.1 h, find?_mnemonic] at hfind
  exact (Option.some.inj hfind).symm

end Opcode

/-! ### Instructions up to NaN -/

/-- The operand, with one NaN for all of them. -/
def Operand.canonical : Operand → Operand
  | number x => number x.canonical
  | offset n => offset n

/-- The instruction, with one NaN for all of them. -/
def Instr.canonical (i : Instr) : Instr := { i with operand := i.operand.map Operand.canonical }

theorem Instr.target?_canonical (i : Instr) : i.canonical.target? = i.target? := by
  obtain ⟨offset, opcode, _ | ⟨x | n⟩⟩ := i <;> rfl

/-! ### One line -/

namespace Chunk

theorem instrText_canonical (c : Chunk) (i : Instr) : c.instrText i.canonical = c.instrText i := by
  obtain ⟨offset, opcode, _ | ⟨x | n⟩⟩ := i
  · rfl
  · have htext := x.tagged_canonical
    unfold instrText
    cases hkind : opcode.operandKind <;>
      simp [Instr.canonical, hkind, Operand.canonical, Operand.text, htext]
  · rfl

/-- What a listing has behind the mnemonic of a line. -/
def operandText (c : Chunk) (offset : Nat) (l : Line) : List Char :=
  let gap := List.replicate (11 - l.opcode.mnemonic.length) ' ' ++ [' ']
  let n := l.word.toNat
  match l.opcode.operandKind with
  | .none => []
  | .number => gap ++ (Single.tagged ⟨l.word⟩).toList
  | .target =>
    gap ++ (if n ≤ offset then '↑' else '↓') :: [' ', '(', '→', ' '] ++ (Text.zeroPad 4 n).toList
      ++ [')']
  | .field =>
    gap ++ (Text.padRight 4 (toString n)).toList ++ [' ', ';', ' ']
      ++ ((c.fields[n]?.map (·.name)).getD "???").toList

theorem toList_instrText (c : Chunk) (offset : Nat) (l : Line) :
    (c.instrText (l.instr offset)).toList =
      l.opcode.mnemonic.toList ++ c.operandText offset l := by
  unfold instrText operandText Line.instr
  cases hkind : l.opcode.operandKind with
  | none => simp
  | number => simp [Operand.ofWord?, Text.toList_padRight, Operand.text]
  | target =>
    simp only [Operand.ofWord?]
    split <;> simp [Text.toList_padRight]
  | field => simp [Operand.ofWord?, Text.toList_padRight]

/-- The mnemonic ends at a blank or at the end of the line. -/
theorem operandText_stops (c : Chunk) (offset : Nat) (l : Line) (rest : List Char) :
    (c.operandText offset l ++ '\n' :: rest).head?.any Text.isWord = false := by
  unfold operandText
  cases l.opcode.operandKind with
  | none => rfl
  | number | target | field =>
    simp only [List.append_assoc, List.cons_append, List.nil_append, Text.head?_blanks]
    rfl

variable {f g : Chunk} {offset : Nat} {r s : List Char}

/-- **The operand is read off the rest of its line,** and what follows the line
is left. -/
theorem operandText_inj (hfields : f.fields = g.fields) {op : Opcode} {v w : UInt32}
    (h : f.operandText offset ⟨op, v⟩ ++ '\n' :: r = g.operandText offset ⟨op, w⟩ ++ '\n' :: s) :
    (Line.instr offset ⟨op, v⟩).canonical = (Line.instr offset ⟨op, w⟩).canonical ∧ r = s := by
  unfold operandText at h
  cases hkind : op.operandKind with
  | none =>
    simp only [hkind, List.nil_append, List.cons.injEq, true_and] at h
    refine ⟨?_, h⟩
    simp only [Line.instr, hkind, Operand.ofWord?]
  | number =>
    simp only [hkind, List.append_assoc, List.append_cancel_left_eq] at h
    obtain ⟨htagged, hrest⟩ := Text.append_newline_inj (Single.newline_notMem_tagged _)
      (Single.newline_notMem_tagged _) h
    have hnumber := Single.tagged_eq_iff.1 (String.toList_inj.1 htagged)
    refine ⟨?_, hrest⟩
    simp only [Line.instr, Instr.canonical, hkind, Operand.ofWord?, Option.map_some,
      Operand.canonical, hnumber]
  | target =>
    simp only [hkind, List.append_assoc, List.append_cancel_left_eq, List.cons_append,
      List.nil_append, List.cons.injEq, true_and] at h
    obtain ⟨htarget, hrest⟩ := Text.zeroPad_append_inj rfl rfl h.2
    simp only [List.cons.injEq, true_and] at hrest
    rw [UInt32.toNat_inj.1 htarget]
    exact ⟨rfl, hrest⟩
  | field =>
    simp only [hkind, List.append_assoc, List.append_cancel_left_eq, Text.toList_padRight,
      List.cons_append, List.nil_append, List.cons.injEq, true_and] at h
    have hstop (k : Nat) (cs : List Char) :
        (List.replicate k ' ' ++ ' ' :: cs).head?.any Char.isDigit = false := by
      rw [Text.head?_blanks]
      rfl
    obtain ⟨hslot, hrest⟩ := Text.toString_append_inj (hstop ..) (hstop ..) h
    -- the slots agree, so the names behind them do
    rw [hslot, hfields] at hrest
    simp only [List.append_cancel_left_eq, List.cons.injEq, true_and] at hrest
    rw [UInt32.toNat_inj.1 hslot]
    exact ⟨rfl, hrest⟩

/-- The text in front of an instruction. -/
def lineStart (marked : Bool) (offset : Nat) : List Char :=
  if marked then targetRule.toList ++ (Text.zeroPad 4 offset).toList ++ [' ', '►', ' ']
  else (Text.zeroPad 4 offset).toList ++ [' ', ' ', ' ']

theorem toList_instrLines (c : Chunk) (targets : List Nat) (offset : Nat) (l : Line) :
    (c.instrLines targets (l.instr offset)).toList = lineStart (targets.contains offset) offset ++
      (l.opcode.mnemonic.toList ++ (c.operandText offset l ++ ['\n'])) := by
  have hoffset : (l.instr offset).offset = offset := rfl
  simp only [instrLines, hoffset, lineStart, String.toList_append, toList_instrText]
  split <;> simp

/-- The offset comes first, or a mark that starts with a blank. -/
theorem lineStart_starts (marked : Bool) (offset : Nat) :
    Text.Starts ' ' marked (lineStart marked offset) := by
  unfold lineStart
  cases marked with
  | true =>
    rw [if_pos rfl, targetRule, String.toList_append, String.toList_append]
    exact ⟨' ', _, rfl, .inl ⟨rfl, rfl⟩⟩
  | false =>
    have hdigits := Text.all_zeroPad 4 offset
    cases htext : (Text.zeroPad 4 offset).toList with
    | nil =>
      rw [Text.toList_zeroPad, List.append_eq_nil_iff] at htext
      exact absurd htext.2 Nat.toDigits_ne_nil
    | cons c cs =>
      rw [htext, List.all_cons, Bool.and_eq_true] at hdigits
      exact ⟨c, _, rfl, .inr ⟨rfl, hdigits.1⟩⟩

theorem lineStart_inj {marked marked' : Bool}
    (h : lineStart marked offset ++ r = lineStart marked' offset ++ s) : r = s := by
  have hstart := (lineStart_starts marked offset).append r
  have hstart' := (lineStart_starts marked' offset).append s
  rw [h] at hstart
  rw [hstart.flag_eq hstart' rfl] at h
  exact List.append_cancel_left h

/-- **An instruction is read off its lines,** and what follows them is left.  The
offset is known from the instructions before it. -/
theorem instrLines_inj (hfields : f.fields = g.fields) {targets targets' : List Nat} {l m : Line}
    (h : (f.instrLines targets (l.instr offset)).toList ++ r =
      (g.instrLines targets' (m.instr offset)).toList ++ s) :
    (l.instr offset).canonical = (m.instr offset).canonical ∧ r = s := by
  simp only [toList_instrLines, List.append_assoc, List.singleton_append] at h
  obtain ⟨hmnemonic, hrest⟩ := Text.append_inj_of_stop l.opcode.all_mnemonic m.opcode.all_mnemonic
    (operandText_stops ..) (operandText_stops ..) (lineStart_inj h)
  obtain ⟨op, v⟩ := l
  obtain ⟨op', w⟩ := m
  obtain rfl : op = op' := Opcode.mnemonic_inj hmnemonic
  exact operandText_inj hfields hrest

/-- An empty line is no line of an instruction. -/
theorem instrLines_ne_newline (c : Chunk) (targets : List Nat) (l : Line) :
    (c.instrLines targets (l.instr offset)).toList ++ r ≠ '\n' :: s := by
  intro h
  rw [toList_instrLines, List.append_assoc] at h
  have hstart : Text.Starts ' ' (targets.contains offset) ('\n' :: s) :=
    h ▸ (lineStart_starts ..).append _
  have hhead := hstart.head?_any (p := (· = '\n')) rfl fun c hc => of_decide_eq_true hc ▸ rfl
  cases hhead

/-! ### The whole listing -/

/-- The lines of a row of instructions. -/
def rowText (c : Chunk) (targets : List Nat) (is : List Instr) : List Char :=
  is.flatMap fun i => (c.instrLines targets i).toList

theorem rowText_cons (c : Chunk) (targets : List Nat) (i : Instr) (is : List Instr) :
    c.rowText targets (i :: is) = (c.instrLines targets i).toList ++ c.rowText targets is := rfl

/-- **A row of instructions is read off its lines,** up to an empty line. -/
theorem rowText_inj (hfields : f.fields = g.fields) {targets targets' : List Nat}
    {ls ms : List Line}
    (h : f.rowText targets (Line.instrsAt offset ls) ++ '\n' :: r =
      g.rowText targets' (Line.instrsAt offset ms) ++ '\n' :: s) :
    (Line.instrsAt offset ls).map Instr.canonical =
      (Line.instrsAt offset ms).map Instr.canonical := by
  induction ls generalizing offset ms with
  | nil =>
    cases ms with
    | nil => rfl
    | cons m ms =>
      rw [Line.instrsAt_cons, rowText_cons, List.append_assoc] at h
      exact absurd h.symm (instrLines_ne_newline g targets' m)
  | cons l ls ih =>
    cases ms with
    | nil =>
      rw [Line.instrsAt_cons, rowText_cons, List.append_assoc] at h
      exact absurd h (instrLines_ne_newline f targets l)
    | cons m ms =>
      rw [Line.instrsAt_cons, Line.instrsAt_cons, rowText_cons, rowText_cons, List.append_assoc,
        List.append_assoc] at h
      obtain ⟨hinstr, hrest⟩ := instrLines_inj hfields h
      -- the lengths agree with the opcodes, so the next lines start at one offset
      have hopcode : l.opcode = m.opcode := congrArg Instr.opcode hinstr
      rw [hopcode] at hrest
      rw [Line.instrsAt_cons, Line.instrsAt_cons, List.map_cons, List.map_cons, hinstr, hopcode,
        ih hrest]

/-- Code that can be read is a row of lines. -/
theorem exists_lines_of_instrs? {c : Chunk} {is : List Instr} (h : c.instrs? = .ok is) :
    ∃ ls, is = Line.instrsAt 0 ls ∧ c.size = Line.total ls := by
  unfold instrs? at h
  split at h
  case h_1 hdecode =>
    cases h
    have hcode := Instr.drop_of_decodeFrom hdecode
    rw [List.drop_zero] at hcode
    have hinstrs := @Line.decodeFrom_encode c.code [] _ hcode
    refine ⟨_, congrArg Prod.fst (hdecode.symm.trans hinstrs), ?_⟩
    rw [size, ← Array.length_toList, hcode, Line.length_encode]
  case h_2 => cases h

theorem size_eq_of_instrs? {c : Chunk} {is : List Instr} (h : c.instrs? = .ok is) :
    c.size = ((is.map (·.opcode)).map Opcode.length).sum := by
  obtain ⟨ls, rfl, hsize⟩ := exists_lines_of_instrs? h
  rw [hsize, Line.total_eq_sum, Line.opcodes_instrsAt]

theorem canonical_eq_of_listingOf (hfields : f.fields = g.fields) {ls ms : List Line}
    (h : f.listingOf (Line.instrsAt 0 ls) = g.listingOf (Line.instrsAt 0 ms)) :
    (Line.instrsAt 0 ls).map Instr.canonical = (Line.instrsAt 0 ms).map Instr.canonical := by
  replace h := congrArg String.toList h
  simp only [listingOf, String.toList_append, List.append_assoc, List.append_cancel_left_eq] at h
  obtain ⟨-, hcounts⟩ := Text.toString_append_inj rfl rfl h
  simp only [List.append_cancel_left_eq] at hcounts
  obtain ⟨-, hrow⟩ := Text.toString_append_inj rfl rfl hcounts
  simp only [hfields, List.append_cancel_left_eq, String.toList_join, List.flatMap_map] at hrow
  exact rowText_inj hfields hrow

/-- A listing does not show the payload of a NaN. -/
theorem listingOf_canonical (c : Chunk) (is : List Instr) :
    c.listingOf (is.map Instr.canonical) = c.listingOf is := by
  have hlines (targets : List Nat) (i : Instr) :
      c.instrLines targets i.canonical = c.instrLines targets i := by
    rw [instrLines, instrText_canonical]
    rfl
  simp only [listingOf, List.length_map, List.map_map, List.filterMap_map, Function.comp_def,
    Instr.target?_canonical, hlines]

/-- Of the code, a listing shows the size and the instructions. -/
theorem listingOf_congr (hfields : f.fields = g.fields) (hsize : f.size = g.size)
    (is : List Instr) : f.listingOf is = g.listingOf is := by
  have hlines : f.instrLines = g.instrLines := by
    funext targets i
    simp only [instrLines, instrText, hfields]
  simp only [listingOf, hsize, hfields, hlines]

/-- **A listing determines the code.**  Two chunks with the same fields whose code
can be read have one listing exactly if they have the same instructions: the same
offsets, opcodes and operands, up to which NaN is pushed. -/
theorem listing_eq_iff {is js : List Instr} (hfields : f.fields = g.fields)
    (hf : f.instrs? = .ok is) (hg : g.instrs? = .ok js) :
    f.listing = g.listing ↔ is.map Instr.canonical = js.map Instr.canonical := by
  have hlisting : f.listing = .ok (f.listingOf is) := by rw [listing, hf]; rfl
  have hlisting' : g.listing = .ok (g.listingOf js) := by rw [listing, hg]; rfl
  rw [hlisting, hlisting', Except.ok.injEq]
  constructor
  · intro h
    obtain ⟨ls, rfl, -⟩ := exists_lines_of_instrs? hf
    obtain ⟨ms, rfl, -⟩ := exists_lines_of_instrs? hg
    exact canonical_eq_of_listingOf hfields h
  · intro h
    have hopcodes : is.map (·.opcode) = js.map (·.opcode) := by
      have hmap := congrArg (List.map (·.opcode)) h
      rwa [List.map_map, List.map_map] at hmap
    have hsize : f.size = g.size := by
      rw [size_eq_of_instrs? hf, size_eq_of_instrs? hg, hopcodes]
    calc f.listingOf is = f.listingOf (is.map Instr.canonical) := (listingOf_canonical f is).symm
      _ = g.listingOf (js.map Instr.canonical) := by rw [h, listingOf_congr hfields hsize]
      _ = g.listingOf js := listingOf_canonical g js

/-- The lines of a loop that stores a number. -/
def storeLoopLines (word target : UInt32) : List Line :=
  [⟨.push, word⟩, ⟨.storeField, 0⟩, ⟨.jump, target⟩]

/-- A loop that stores a number in a field, whose name looks like a line. -/
def storeLoop (word target : UInt32) : Chunk where
  code := (Line.encode (storeLoopLines word target)).toArray
  fields := #[⟨"a\n0010   RET", Single.zero⟩]

theorem listing_eq_iff_storeLoop :
    (storeLoop 0x7fc00001 5).fields = (storeLoop 0xffc00000 5).fields ∧
      (storeLoop 0x7fc00001 5).instrs? = .ok [⟨0, .push, some (.number ⟨0x7fc00001⟩)⟩,
        ⟨5, .storeField, some (.offset 0)⟩, ⟨10, .jump, some (.offset 5)⟩] ∧
      (storeLoop 0xffc00000 5).instrs? = .ok [⟨0, .push, some (.number ⟨0xffc00000⟩)⟩,
        ⟨5, .storeField, some (.offset 0)⟩, ⟨10, .jump, some (.offset 5)⟩] ∧
      (storeLoop 0x7fc00001 5).listing = (storeLoop 0xffc00000 5).listing ∧
      (storeLoop 0x7fc00001 5).listing ≠ (storeLoop 0x7fc00001 0).listing := by
  have hinstrs (word target : UInt32) :
      (storeLoop word target).instrs? = .ok (Line.instrsAt 0 (storeLoopLines word target)) := by
    have hcode : (storeLoop word target).code.toList =
        [] ++ Line.encode (storeLoopLines word target) := List.toList_toArray
    have hdecode := Line.decodeFrom_encode hcode
    rw [List.length_nil] at hdecode
    rw [instrs?, instrs, hdecode]
  have hloop := hinstrs 0x7fc00001 5
  have hnan := hinstrs 0xffc00000 5
  have hback := hinstrs 0x7fc00001 0
  refine ⟨rfl, hloop, hnan, (listing_eq_iff (by rfl) hloop hnan).2 (by decide), fun h => ?_⟩
  exact absurd ((listing_eq_iff (by rfl) hloop hback).1 h) (by decide)

end Chunk
end FieldScript
