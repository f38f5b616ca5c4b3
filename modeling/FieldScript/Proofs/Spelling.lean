/-
# How a text is cut into tokens

A scan counts lines and columns, which the tokens do not depend on.  `Scans`
leaves the places out: a text is scanned as tokens wherever it starts.

Names, numbers and operators are as long as they can be, so how one is read
depends on the character behind it.  A blank, a parenthesis, a comma or a
semicolon ends every word (`Delimited`), and a word before one of these is read
as one token (`Spells`).  Brackets are read as themselves whatever follows.

The other way, the names that a scan returns are words, and the end of input
comes once, at the end (`of_scanFrom`).
-/

import FieldScript.Expr.Parser
import FieldScript.Proofs.Numerals

namespace FieldScript
namespace Token

/-! ### Scanning without places -/

/-- A text is scanned as tokens, the end of input last, wherever it starts. -/
def Scans (cs : List Char) (ts : List Token) : Prop :=
  ∀ span, ∃ located, scanFrom span cs = .ok located ∧ located.map (·.token) = ts

namespace Scans

variable {c : Char} {cs rest : List Char} {t : Token} {ts : List Token}

theorem nil : Scans [] [.endOfInput] := fun span => ⟨_, scanFrom.eq_1 span, rfl⟩

theorem blank (h : Scans cs ts) : Scans (' ' :: cs) ts := by
  intro span
  have hgap : isGap ' ' = true := rfl
  rw [scanFrom, if_pos hgap]
  exact h _

theorem lexeme (hc : isGap c = false) (hlexeme : Token.lexeme c (cs ++ rest) = .ok (t, cs.length))
    (h : Scans rest ts) : Scans (c :: cs ++ rest) (t :: ts) := by
  intro span
  obtain ⟨located, hlocated, hts⟩ := h (span.after (c :: cs))
  refine ⟨⟨t, span⟩ :: located, ?_, by rw [List.map_cons, hts]⟩
  rw [List.cons_append, scanFrom, if_neg (by simp [hc]), hlexeme]
  simp [hlocated]

/-- One character is a token, whatever follows. -/
theorem bracket (hc : isGap c = false) (hlexeme : ∀ cs, Token.lexeme c cs = .ok (t, 0))
    (h : Scans rest ts) : Scans (c :: rest) (t :: ts) :=
  @lexeme c [] rest t ts hc (hlexeme rest) h

end Scans

/-! ### Words -/

/-- Characters that end a word. -/
def delimiters : List Char := [' ', '(', ')', ',', ';']

/-- The text can stand behind a word. -/
def Delimited (cs : List Char) : Prop := ∀ c, cs.head? = some c → c ∈ delimiters

/-- A text is read as tokens if a delimiter follows. -/
def Spells (cs : List Char) (ts : List Token) : Prop :=
  ∀ rest us, Delimited rest → Scans rest us → Scans (cs ++ rest) (ts ++ us)

theorem delimited_cons {c : Char} (h : c ∈ delimiters) (cs : List Char) : Delimited (c :: cs) := by
  intro d hd
  rwa [← Option.some.inj hd]

theorem Delimited.head?_any {p : Char → Bool} (hp : delimiters.any p = false) {rest : List Char}
    (hrest : Delimited rest) : rest.head?.any p = false := by
  cases rest with
  | nil => rfl
  | cons c rest => exact Bool.eq_false_iff.2 (List.any_eq_false.1 hp c (hrest c rfl))

/-- A run of characters of one kind stops at a delimiter of another. -/
theorem Delimited.takeWhile {p : Char → Bool} (hp : delimiters.any p = false)
    {cs rest : List Char} (hcs : cs.all p) (hrest : Delimited rest) :
    (cs ++ rest).takeWhile p = cs :=
  (Single.takeWhile_of_stop hcs (hrest.head?_any hp)).1

theorem isGap_eq_false {p : Char → Bool} (hp : [' ', '\t', '\r'].any p = false) {c : Char}
    (h : p c = true) : isGap c = false := by
  refine Bool.eq_false_iff.2 fun hgap => ?_
  have hmem : c ∈ [' ', '\t', '\r'] := by simpa [isGap, or_assoc] using hgap
  exact List.any_eq_false.1 hp c hmem h

theorem spells_lexeme {c : Char} {cs : List Char} {t : Token} (hc : isGap c = false)
    (h : ∀ rest, Delimited rest → lexeme c (cs ++ rest) = .ok (t, cs.length)) :
    Spells (c :: cs) [t] :=
  fun rest _ hrest hscans => hscans.lexeme hc (h rest hrest)

theorem spells_minus {cs : List Char} {ts : List Token} (h : Spells cs ts) :
    Spells ('-' :: cs) (.arith .sub :: ts) :=
  fun rest us hrest hscans => (h rest us hrest hscans).bracket rfl fun _ => rfl

/-! ### Names -/

/-- Names that are read as one token: a letter or `_`, then letters, digits, `_`
and points, and not the keyword. -/
def isName (name : String) : Bool :=
  name ≠ "if" &&
    match name.toList with
    | [] => false
    | c :: cs => isNameStart c && cs.all isNameChar

/-- A letter is no digit. -/
theorem isDigit_of_isNameStart {c : Char} (h : isNameStart c = true) : c.isDigit = false := by
  refine Bool.eq_false_iff.2 fun hdigit => ?_
  have hle : c.toNat ≤ 57 := of_decide_eq_true ((Bool.and_eq_true _ _).mp hdigit).2
  have hascii : c.toNat < 128 := Nat.lt_of_le_of_lt hle (by decide)
  rw [isNameStart, Text.isAlphabetic, if_pos hascii, Bool.or_eq_true, decide_eq_true_eq] at h
  obtain halpha | rfl := h
  · have hge : 65 ≤ c.toNat := by
      obtain hupper | hlower := (Bool.or_eq_true _ _).mp halpha
      · have hupper : 65 ≤ c.toNat ∧ c.toNat ≤ 90 := of_decide_eq_true hupper
        exact hupper.1
      · have hlower : 97 ≤ c.toNat := of_decide_eq_true ((Bool.and_eq_true _ _).mp hlower).1
        omega
    omega
  · exact absurd hle (by decide)

theorem lexeme_name {c : Char} (h : isNameStart c = true) (cs : List Char) :
    lexeme c cs = .ok (ofName (String.ofList (c :: cs.takeWhile isNameChar)),
      (cs.takeWhile isNameChar).length) := by
  have hnewline : c ≠ '\n' := by rintro rfl; cases h
  have hslash : c ≠ '/' := by rintro rfl; cases h
  have hpoint : c ≠ '.' := by rintro rfl; cases h
  simp [lexeme, hnewline, hslash, hpoint, isDigit_of_isNameStart h, h]

theorem spells_word {c : Char} {cs : List Char} (hc : isNameStart c = true)
    (hcs : cs.all isNameChar) : Spells (c :: cs) [ofName (String.ofList (c :: cs))] := by
  refine spells_lexeme (isGap_eq_false (by decide) hc) fun rest hrest => ?_
  rw [lexeme_name hc, hrest.takeWhile (by decide) hcs]

theorem spells_name {name : String} (h : isName name = true) :
    Spells name.toList [.ident name] := by
  rw [isName, Bool.and_eq_true, decide_eq_true_eq] at h
  obtain ⟨hif, h⟩ := h
  have hname : String.ofList name.toList = name := String.ofList_toList
  cases hcs : name.toList with
  | nil => simp [hcs] at h
  | cons c cs =>
    simp only [hcs, Bool.and_eq_true] at h
    have hword := spells_word h.1 h.2
    rwa [← hcs, hname, ofName, if_neg hif, hcs] at hword

theorem spells_if : Spells ['i', 'f'] [.ifWord] := by
  have hword := @spells_word 'i' ['f'] (by decide) (by decide)
  rwa [ofName, if_pos (by decide)] at hword

/-! ### Numbers -/

theorem ofDigits_partsText {whole fraction : List Char} (hwhole : whole.all Char.isDigit)
    (hfraction : fraction.all Char.isDigit) (hsome : whole ≠ [] ∨ fraction ≠ []) :
    ofDigits (Decimal.partsText whole fraction) =
      .ok (number (.ofDecimal false (.ofParts whole fraction))) := by
  rw [ofDigits, Single.read?_partsText hwhole hfraction hsome]

theorem cons_partsText (c : Char) (whole fraction : List Char) :
    c :: Decimal.partsText whole fraction = Decimal.partsText (c :: whole) fraction := by
  unfold Decimal.partsText
  split <;> rfl

theorem all_fractionDigits (cs : List Char) : (fractionDigits cs).all Char.isDigit := by
  unfold fractionDigits
  split
  · exact List.all_takeWhile
  · rfl

/-- **What a digit starts is a number.** -/
theorem lexeme_digit {c : Char} (h : c.isDigit = true) (cs : List Char) :
    let whole := cs.takeWhile Char.isDigit
    let fraction := fractionDigits (cs.drop whole.length)
    lexeme c cs = .ok (number (.ofDecimal false (.ofParts (c :: whole) fraction)),
      (Decimal.partsText whole fraction).length) := by
  intro whole fraction
  have hnewline : c ≠ '\n' := by rintro rfl; cases h
  have hslash : c ≠ '/' := by rintro rfl; cases h
  have hdigits : (c :: whole).all Char.isDigit := by rw [List.all_cons, h]; exact List.all_takeWhile
  have hlexeme : lexeme c cs =
      (ofDigits (c :: Decimal.partsText whole fraction)).map
        (·, (Decimal.partsText whole fraction).length) := by
    simp [lexeme, hnewline, hslash, h, whole, fraction]
  rw [hlexeme, cons_partsText, ofDigits_partsText hdigits (all_fractionDigits _) (.inl (by simp))]
  rfl

theorem point_partsText {fraction : List Char} (h : fraction ≠ []) :
    '.' :: fraction = Decimal.partsText [] fraction := by
  simp [Decimal.partsText, h]

theorem takeWhile_ne_nil {p : Char → Bool} {cs : List Char} (h : cs.head?.any p = true) :
    cs.takeWhile p ≠ [] := by
  obtain ⟨c, hc, hp⟩ := (Option.any_eq_true ..).1 h
  obtain ⟨cs, rfl⟩ := List.head?_eq_some_iff.1 hc
  simp [hp]

/-- **What a point before a digit starts is a number.** -/
theorem lexeme_point {cs : List Char} (h : cs.head?.any Char.isDigit = true) :
    let fraction := cs.takeWhile Char.isDigit
    lexeme '.' cs = .ok (number (.ofDecimal false (.ofParts [] fraction)), fraction.length) := by
  intro fraction
  have hne : fraction ≠ [] := takeWhile_ne_nil h
  have hlexeme : lexeme '.' cs = (ofDigits ('.' :: fraction)).map (·, fraction.length) := by
    simp [lexeme, h, fraction]
  rw [hlexeme, point_partsText hne, ofDigits_partsText rfl List.all_takeWhile (.inr hne)]
  rfl

theorem fractionDigits_of_delimited {rest : List Char} (h : Delimited rest) :
    fractionDigits rest = [] := by
  unfold fractionDigits
  split
  · exact absurd (h '.' rfl) (by decide)
  · rfl

/-- The digits of a number stop where the number does. -/
theorem fractionDigits_append {fraction rest : List Char} (hfraction : fraction.all Char.isDigit)
    (hrest : rest.head?.any Char.isDigit = false) :
    fractionDigits ('.' :: (fraction ++ rest)) = fraction :=
  (Single.takeWhile_of_stop hfraction hrest).1

theorem lexeme_partsText {c : Char} {whole fraction rest : List Char}
    (hwhole : (c :: whole).all Char.isDigit) (hfraction : fraction.all Char.isDigit)
    (hrest : rest.head?.any Char.isDigit = false)
    (hpoint : fraction = [] → fractionDigits rest = []) :
    lexeme c (Decimal.partsText whole fraction ++ rest) =
      .ok (number (.ofDecimal false (.ofParts (c :: whole) fraction)),
        (Decimal.partsText whole fraction).length) := by
  rw [List.all_cons, Bool.and_eq_true] at hwhole
  rw [lexeme_digit hwhole.1]
  cases fraction with
  | nil =>
    have hparts : Decimal.partsText whole [] = whole := rfl
    rw [hparts, (Single.takeWhile_of_stop hwhole.2 hrest).1, List.drop_left, hpoint rfl, hparts]
  | cons d fraction =>
    have hparts : Decimal.partsText whole (d :: fraction) = whole ++ '.' :: d :: fraction := rfl
    rw [hparts, List.append_assoc, List.cons_append,
      (Single.takeWhile_of_stop hwhole.2 rfl).1, List.drop_left,
      fractionDigits_append hfraction hrest, hparts]

theorem lexeme_number {c : Char} (h : c.isDigit = true) {whole fraction rest : List Char}
    (hwhole : whole.all Char.isDigit) (hfraction : fraction.all Char.isDigit)
    (hrest : Delimited rest) :
    lexeme c (whole ++ (if fraction = [] then [] else '.' :: fraction) ++ rest) =
      .ok (number (Single.ofDecimal false (.ofParts (c :: whole) fraction)),
        (whole ++ if fraction = [] then [] else '.' :: fraction).length) := by
  have hparts : whole ++ (if fraction = [] then [] else '.' :: fraction) =
      Decimal.partsText whole fraction := by
    cases fraction <;> simp [Decimal.partsText]
  have hdigits : (c :: whole).all Char.isDigit := by rw [List.all_cons, h, hwhole]; rfl
  rw [hparts]
  exact lexeme_partsText hdigits hfraction (hrest.head?_any (by decide))
    fun _ => fractionDigits_of_delimited hrest

theorem spells_digits {d : Decimal} {whole fraction : List Char} (h : d.Parts whole fraction) :
    Spells d.plain [.number (.ofDecimal false (.ofParts whole fraction))] := by
  cases hwhole : whole with
  | nil => exact absurd hwhole h.whole_ne_nil
  | cons c cs =>
    have hdigits := h.whole_digits
    rw [hwhole, List.all_cons, Bool.and_eq_true] at hdigits
    rw [h.layout, hwhole]
    exact spells_lexeme (isGap_eq_false (by decide) hdigits.1) fun rest hrest =>
      lexeme_number hdigits.1 hdigits.2 h.fraction_digits hrest

/-! ### Operators -/

/-- Characters that start neither a name nor a number nor a line. -/
def isSymbol (c : Char) : Bool := !(isNameStart c || c.isDigit || c = '.' || c = '\n' || isGap c)

theorem Delimited.head?_mem {cs : List Char} (h : Delimited cs) :
    cs.head? ∈ none :: delimiters.map some := by
  cases cs with
  | nil => exact List.mem_cons_self
  | cons c cs => exact List.mem_cons_of_mem _ (List.mem_map_of_mem (h c rfl))

theorem isGap_of_isSymbol {c : Char} (h : isSymbol c = true) : isGap c = false := by
  simp only [isSymbol, Bool.not_eq_true', Bool.or_eq_false_iff] at h
  exact h.2

theorem isNameStart_of_isSymbol {c : Char} (h : isSymbol c = true) : isNameStart c = false := by
  simp only [isSymbol, Bool.not_eq_true', Bool.or_eq_false_iff] at h
  exact h.1.1.1.1

/-- Neither a line break nor a comment, a number or a name starts here. -/
structure Bare (c : Char) (cs : List Char) : Prop where
  newline : c ≠ '\n'
  lineComment : ¬(c = '/' ∧ cs.head? = some '/')
  blockComment : ¬(c = '/' ∧ cs.head? = some '*')
  digit : c.isDigit = false
  point : ¬(c = '.' ∧ cs.head?.any Char.isDigit = true)
  name : isNameStart c = false

/-- **What starts nothing else is an operator, or it is unexpected.** -/
theorem lexeme_bare {c : Char} {cs : List Char} (h : Bare c cs) :
    lexeme c cs = (operator? c cs.head?).elim (.error (.unexpected c)) .ok := by
  simp only [lexeme, h.newline, h.lineComment, h.blockComment, h.digit, h.point, h.name,
    Bool.and_eq_true, decide_eq_true_eq, Bool.false_eq_true, if_false]
  cases operator? c cs.head? <;> rfl

theorem lexeme_symbol {c : Char} (hc : isSymbol c = true) {cs : List Char} {t : Token} {n : Nat}
    (hline : ¬(c = '/' ∧ cs.head? = some '/')) (hblock : ¬(c = '/' ∧ cs.head? = some '*'))
    (h : operator? c cs.head? = some (t, n)) : lexeme c cs = .ok (t, n) := by
  simp only [isSymbol, Bool.not_eq_true', Bool.or_eq_false_iff, decide_eq_false_iff_not] at hc
  obtain ⟨⟨⟨⟨hname, hdigit⟩, hpoint⟩, hnewline⟩, -⟩ := hc
  rw [lexeme_bare ⟨hnewline, hline, hblock, hdigit, fun h => hpoint h.1, hname⟩, h]
  rfl

theorem spells_symbol {c : Char} {t : Token} (hc : isSymbol c = true)
    (h : ∀ next ∈ none :: delimiters.map some, operator? c next = some (t, 0)) :
    Spells [c] [t] := by
  refine spells_lexeme (isGap_of_isSymbol hc) fun rest hrest => ?_
  have hnext := hrest.head?_mem
  have hcomment : ∀ next ∈ none :: delimiters.map some, next ≠ some '/' ∧ next ≠ some '*' := by
    decide
  exact lexeme_symbol hc (fun h => (hcomment _ hnext).1 h.2) (fun h => (hcomment _ hnext).2 h.2)
    (h _ hnext)

theorem spells_symbolPair {c d : Char} {t : Token} (hc : isSymbol c = true) (hd : d ≠ '/' ∧ d ≠ '*')
    (h : operator? c (some d) = some (t, 1)) : Spells [c, d] [t] :=
  spells_lexeme (isGap_of_isSymbol hc) fun _ _ =>
    lexeme_symbol hc (fun h => hd.1 (Option.some.inj h.2)) (fun h => hd.2 (Option.some.inj h.2)) h

theorem spells_arith (op : ArithOp) : Spells op.symbol.toList [.arith op] := by
  cases op with
  | add => exact spells_symbol (c := '+') (by decide) (by decide)
  | sub => exact spells_symbol (c := '-') (by decide) (by decide)
  | mul => exact spells_symbol (c := '*') (by decide) (by decide)
  | div => exact spells_symbol (c := '/') (by decide) (by decide)
  | mod => exact spells_symbol (c := '%') (by decide) (by decide)

theorem spells_cmp (op : CmpOp) : Spells op.symbol.toList [.cmp op] := by
  cases op with
  | eq => exact spells_symbolPair (c := '=') (d := '=') (by decide) (by decide) rfl
  | ne => exact spells_symbolPair (c := '!') (d := '=') (by decide) (by decide) rfl
  | lt => exact spells_symbol (c := '<') (by decide) (by decide)
  | gt => exact spells_symbol (c := '>') (by decide) (by decide)
  | le => exact spells_symbolPair (c := '<') (d := '=') (by decide) (by decide) rfl
  | ge => exact spells_symbolPair (c := '>') (d := '=') (by decide) (by decide) rfl

theorem spells_orOr : Spells "||".toList [.orOr] :=
  spells_symbolPair (c := '|') (d := '|') (by decide) (by decide) rfl

theorem spells_andAnd : Spells "&&".toList [.andAnd] :=
  spells_symbolPair (c := '&') (d := '&') (by decide) (by decide) rfl

theorem spells_assign : Spells ['='] [.assign] := spells_symbol (by decide) (by decide)

/-! ### What a scan returns -/

/-- The name in a token, if there is one, is read as one token. -/
def wellNamed : Token → Bool
  | ident name => isName name
  | _ => true

theorem wellNamed_ofName {c : Char} {cs : List Char} (hc : isNameStart c = true)
    (hcs : cs.all isNameChar) : (ofName (String.ofList (c :: cs))).wellNamed = true := by
  rw [ofName]
  split
  case isTrue => rfl
  case isFalse hif =>
    simp only [wellNamed, isName, String.toList_ofList, hc, hcs, ne_eq, hif, not_false_eq_true,
      decide_true, Bool.and_self]

theorem of_operator? {c : Char} {next : Option Char} {t : Token} {n : Nat}
    (h : operator? c next = some (t, n)) : t ≠ .endOfInput ∧ t.wellNamed = true := by
  unfold operator? at h
  split at h <;> cases h <;> decide

theorem of_ofDigits {digits : List Char} {n k : Nat} {t : Token}
    (h : (ofDigits digits).map (·, k) = .ok (t, n)) : t ≠ .endOfInput ∧ t.wellNamed = true := by
  unfold ofDigits at h
  split at h <;> cases h
  exact ⟨nofun, rfl⟩

theorem of_lexeme {c : Char} {cs : List Char} {t : Token} {n : Nat}
    (h : lexeme c cs = .ok (t, n)) : t ≠ .endOfInput ∧ t.wellNamed = true := by
  unfold lexeme at h
  dsimp only at h
  split at h
  · -- A newline and two kinds of comments hold no name.
    cases h
    exact ⟨nofun, rfl⟩
  split at h
  · cases h
    exact ⟨nofun, rfl⟩
  split at h
  · split at h <;> cases h
    exact ⟨nofun, rfl⟩
  split at h
  · exact of_ofDigits h
  split at h
  · exact of_ofDigits h
  split at h
  · rename_i hstart
    cases h
    refine ⟨?_, wellNamed_ofName hstart List.all_takeWhile⟩
    rw [ofName]
    split <;> nofun
  · split at h
    · rename_i hoperator
      cases h
      exact of_operator? hoperator
    · cases h

/-- **A scan ends with the end of input,** which stands nowhere else, and its
names are words. -/
theorem of_scanFrom {span : Span} {cs : List Char} {located : List Located}
    (h : scanFrom span cs = .ok located) :
    ∃ front last, located = front ++ [⟨.endOfInput, last⟩] ∧
      ∀ t ∈ front, t.token ≠ .endOfInput ∧ t.token.wellNamed = true := by
  fun_induction scanFrom span cs generalizing located with
  | case1 span =>
    cases h
    exact ⟨[], span, rfl, nofun⟩
  | case2 span c rest hgap ih => exact ih h
  | case3 => cases h
  | case4 => cases h
  | case5 span c rest hgap t n hlexeme more hmore ih =>
    cases h
    obtain ⟨front, last, rfl, hfront⟩ := ih hmore
    exact ⟨⟨t, span⟩ :: front, last, rfl, List.forall_mem_cons.2 ⟨of_lexeme hlexeme, hfront⟩⟩

end Token
end FieldScript
