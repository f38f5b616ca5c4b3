/-
# Tagged numbers are told apart

The tagged form of a number is a sign and then `inf`, digits with a point, or
digits with an exponent behind them; every NaN is `NaN`.  A reader tells these
apart by the characters that may stand in each part: the digits and the point
end where the `e` or the text does (`exists_taggedParts`).

* Digits without an exponent read back, so they give the magnitude.
* With an exponent, the digits are those of the shortest decimal, and the
  exponent puts the point, so they give that decimal.

Hence two numbers are written alike only if they are one number or both NaN
(`tagged_eq_iff`).
-/

import FieldScript.Proofs.Numerals

namespace FieldScript

/-! ### Rows of characters -/

namespace Text

/-- **A row of characters of one kind is told from what follows it.** -/
theorem append_inj_of_stop {p : Char → Bool} {a b r s : List Char} (ha : a.all p) (hb : b.all p)
    (hr : r.head?.any p = false) (hs : s.head?.any p = false) (h : a ++ r = b ++ s) :
    a = b ∧ r = s := by
  obtain ⟨htake, hdrop⟩ := Single.takeWhile_of_stop ha hr
  obtain ⟨htake', hdrop'⟩ := Single.takeWhile_of_stop hb hs
  rw [h] at htake hdrop
  exact ⟨htake.symm.trans htake', hdrop.symm.trans hdrop'⟩

/-- The text starts with a mark if the flag is set, and with a digit otherwise. -/
def Starts (mark : Char) (flag : Bool) (cs : List Char) : Prop :=
  ∃ c rest, cs = c :: rest ∧ (flag = true ∧ c = mark ∨ flag = false ∧ c.isDigit = true)

section Starts

variable {mark : Char} {flag flag' : Bool} {cs : List Char}

theorem Starts.append (h : Starts mark flag cs) (rest : List Char) :
    Starts mark flag (cs ++ rest) := by
  obtain ⟨c, cs, rfl, hc⟩ := h
  exact ⟨c, cs ++ rest, rfl, hc⟩

/-- The first character tells the flag. -/
theorem Starts.flag_eq (h : Starts mark flag cs) (h' : Starts mark flag' cs)
    (hmark : mark.isDigit = false) : flag = flag' := by
  obtain ⟨c, cs, rfl, hc⟩ := h
  obtain ⟨c', cs', heq, hc'⟩ := h'
  obtain ⟨rfl, -⟩ := List.cons.inj heq
  rcases hc with ⟨rfl, rfl⟩ | ⟨rfl, hdigit⟩ <;> rcases hc' with ⟨rfl, hc'⟩ | ⟨rfl, hdigit'⟩
  · rfl
  · exact absurd hdigit' (Bool.eq_false_iff.1 hmark)
  · exact absurd hdigit (hc' ▸ Bool.eq_false_iff.1 hmark)
  · rfl

theorem Starts.head?_any {p : Char → Bool} (h : Starts mark flag cs) (hmark : p mark = false)
    (hdigit : ∀ c, p c = true → c.isDigit = false) : cs.head?.any p = false := by
  obtain ⟨c, cs, rfl, ⟨-, rfl⟩ | ⟨-, hc⟩⟩ := h
  · exact hmark
  · exact Bool.eq_false_iff.2 fun hp => Bool.false_ne_true ((hdigit c hp).symm.trans hc)

end Starts

theorem all_toDigits (n : Nat) : (Nat.toDigits 10 n).all Char.isDigit :=
  Decimal.all_digitChars ⟨n, 0⟩

theorem notMem_toDigits {c : Char} (h : c.isDigit = false) (n : Nat) : c ∉ Nat.toDigits 10 n :=
  fun hmem => Bool.false_ne_true (h.symm.trans (List.all_eq_true.1 (all_toDigits n) c hmem))

/-- Digits determine the number, whatever zeros stand in front of them. -/
theorem eq_of_zeros_append {j k m n : Nat}
    (h : List.replicate j '0' ++ Nat.toDigits 10 m = List.replicate k '0' ++ Nat.toDigits 10 n) :
    m = n := by
  have hvalue := congrArg Decimal.natOfDigits h
  rwa [Decimal.natOfDigits_zeros_append, Decimal.natOfDigits_zeros_append] at hvalue

theorem toDigits_inj {m n : Nat} (h : Nat.toDigits 10 m = Nat.toDigits 10 n) : m = n :=
  eq_of_zeros_append (j := 0) (k := 0) (congrArg ([] ++ ·) h)

theorem toList_natCast (n : Nat) : (toString (n : Int)).toList = Nat.toDigits 10 n := by
  rw [Int.toString_eq_repr, ← Int.ofNat_eq_natCast, Int.repr]
  simp

theorem toList_negSucc (n : Nat) :
    (toString (Int.negSucc n)).toList = '-' :: Nat.toDigits 10 (n + 1) := by
  rw [Int.toString_eq_repr, Int.repr]
  simp

/-- An integer is read off its digits and its sign. -/
theorem toString_int_inj {m n : Int} (h : (toString m).toList = (toString n).toList) : m = n := by
  rcases m with m | m <;> rcases n with n | n
  · rw [Int.ofNat_eq_natCast, Int.ofNat_eq_natCast, toList_natCast, toList_natCast] at h
    rw [toDigits_inj h]
  · refine absurd ?_ (notMem_toDigits (c := '-') rfl m)
    rw [← toList_natCast, ← Int.ofNat_eq_natCast, h, toList_negSucc]
    exact List.mem_cons_self
  · refine absurd ?_ (notMem_toDigits (c := '-') rfl n)
    rw [← toList_natCast, ← Int.ofNat_eq_natCast, ← h, toList_negSucc]
    exact List.mem_cons_self
  · rw [toList_negSucc, toList_negSucc, List.cons.injEq] at h
    have := toDigits_inj h.2
    omega

theorem newline_notMem_int (n : Int) : '\n' ∉ (toString n).toList := by
  cases n with
  | ofNat n =>
    rw [Int.ofNat_eq_natCast, toList_natCast]
    exact notMem_toDigits rfl n
  | negSucc n =>
    rw [toList_negSucc, List.mem_cons, not_or]
    exact ⟨by decide, notMem_toDigits rfl _⟩

end Text
/-! ### Decimals -/

namespace Decimal

/-- The characters that may stand before an exponent. -/
def isMantissa (c : Char) : Bool := c.isDigit || c = '.'

/-- A zero behind the point changes nothing. -/
theorem magnitude_ofParts_zero (whole : List Char) :
    (ofParts whole ['0']).magnitude = (ofParts whole []).magnitude := by
  have hdigits : natOfDigits (whole ++ ['0']) = 10 * natOfDigits whole := by
    rw [natOfDigits, List.foldl_append]
    rfl
  have hten := magnitude_div_ten (-1) (Nat.mul_mod_right 10 (natOfDigits whole))
  rw [Nat.mul_div_cancel_left _ (by decide)] at hten
  rw [ofParts, hdigits, ofParts, List.append_nil]
  exact hten.symm

/-- A tagged decimal: digits and a point, then an exponent or nothing.  Without
an exponent they read back; with one they are the digits of the decimal. -/
structure TaggedParts (d : Decimal) (front tail : List Char) : Prop where
  layout : d.tagged = front ++ tail
  starts : front.head?.any Char.isDigit = true
  mantissa : front.all isMantissa = true
  value : tail = [] ∧ (Single.readDecimal? front).map magnitude = some d.magnitude ∨
    tail = 'e' :: (toString d.leading).toList ∧ front.filter Char.isDigit = d.digitChars

theorem isMantissa_of_all {cs : List Char} (h : cs.all Char.isDigit) : cs.all isMantissa :=
  List.all_eq_true.2 fun c hc => by rw [isMantissa, List.all_eq_true.1 h c hc, Bool.true_or]

/-- Digits with at most one point, read back to the magnitude of `d`. -/
theorem taggedParts_partsText {d : Decimal} {whole fraction : List Char} (hne : whole ≠ [])
    (hwhole : whole.all Char.isDigit) (hfraction : fraction.all Char.isDigit)
    (hlayout : d.tagged = partsText whole fraction)
    (hback : (ofParts whole fraction).magnitude = d.magnitude) :
    TaggedParts d (partsText whole fraction) [] := by
  refine ⟨hlayout.trans (List.append_nil _).symm, ?_, ?_, .inl ⟨rfl, ?_⟩⟩
  · obtain ⟨c, cs, rfl⟩ := List.exists_cons_of_ne_nil hne
    have hc := (Bool.and_eq_true_iff.1 hwhole).1
    unfold partsText
    split <;> exact hc
  · have hmantissa := isMantissa_of_all hwhole
    unfold partsText
    split
    · exact hmantissa
    · rw [List.all_append, hmantissa, List.all_cons, isMantissa_of_all hfraction]
      decide
  · rw [Single.readDecimal?_partsText hwhole hfraction (.inl hne), Option.map_some, hback]

theorem taggedParts_positional {d : Decimal} (h : d.isPositional = true) :
    ∃ front, TaggedParts d front [] := by
  by_cases he : d.exponent < 0
  · obtain ⟨whole, fraction, hparts⟩ := d.exists_parts
    refine ⟨_, taggedParts_partsText hparts.whole_ne_nil hparts.whole_digits
      hparts.fraction_digits ?_ hparts.reads_back⟩
    rw [tagged, if_pos h, if_pos he, hparts.layout, partsText]
    cases fraction with
    | nil => exact List.append_nil whole
    | cons c cs => rfl
  · obtain ⟨n, e⟩ := d
    obtain ⟨e, rfl⟩ := Int.eq_ofNat_of_zero_le (Int.not_lt.1 he)
    obtain ⟨whole, hparts⟩ := exists_parts_nonneg n e
    have hback := (magnitude_ofParts_zero whole).trans hparts.reads_back
    refine ⟨_, taggedParts_partsText hparts.whole_ne_nil hparts.whole_digits rfl ?_ hback⟩
    rw [tagged, if_pos h, if_neg he, hparts.layout, if_pos rfl, List.append_nil]
    rfl

/-- Digits with a point behind the first one, unless that is the only one. -/
theorem taggedParts_scientific {d : Decimal} (h : d.isPositional = false) :
    ∃ front, TaggedParts d front ('e' :: (toString d.leading).toList) := by
  have htagged : d.tagged = d.scientific := by rw [tagged, h, if_neg Bool.false_ne_true]
  unfold scientific at htagged
  have hdigits := d.all_digitChars
  cases hchars : d.digitChars with
  | nil => exact absurd hchars Nat.toDigits_ne_nil
  | cons c cs =>
    rw [hchars] at htagged hdigits
    have hself := List.filter_eq_self.2 (List.all_eq_true.1 hdigits)
    obtain ⟨hc, hcs⟩ := Bool.and_eq_true_iff.1 hdigits
    cases cs with
    | nil =>
      exact ⟨[c], htagged, hc, isMantissa_of_all hdigits, .inr ⟨rfl, hself.trans hchars.symm⟩⟩
    | cons c' cs =>
      refine ⟨c :: '.' :: c' :: cs, htagged, hc, ?_, .inr ⟨rfl, ?_⟩⟩
      · rw [List.all_cons, List.all_cons, isMantissa_of_all hcs, isMantissa, hc,
          Bool.true_or]
        decide
      · rw [hchars, List.filter_cons_of_pos hc, List.filter_cons_of_neg (by decide),
          ← List.filter_cons_of_pos hc, hself]

/-- **Every tagged decimal is digits and a point, then an exponent or nothing.** -/
theorem exists_taggedParts (d : Decimal) : ∃ front tail, TaggedParts d front tail := by
  cases h : d.isPositional with
  | true =>
    obtain ⟨front, hfront⟩ := taggedParts_positional h
    exact ⟨front, [], hfront⟩
  | false =>
    obtain ⟨front, hfront⟩ := taggedParts_scientific h
    exact ⟨front, _, hfront⟩

variable {d e : Decimal} {front tail : List Char}

theorem TaggedParts.stops (h : TaggedParts d front tail) : tail.head?.any isMantissa = false := by
  rcases h.value with ⟨rfl, -⟩ | ⟨rfl, -⟩ <;> rfl

theorem ext_leading (hdigits : d.digitChars = e.digitChars) (hleading : d.leading = e.leading) :
    d = e := by
  rw [leading, leading, hdigits] at hleading
  obtain ⟨m, i⟩ := d
  obtain ⟨n, j⟩ := e
  have hm : m = n := Text.toDigits_inj hdigits
  have hi : i = j := by
    dsimp only at hleading
    omega
  rw [hm, hi]

/-- **Decimals written alike are nearest to one number.** -/
theorem magnitude_eq_of_tagged (h : d.tagged = e.tagged) : d.magnitude = e.magnitude := by
  obtain ⟨front, tail, hd⟩ := d.exists_taggedParts
  obtain ⟨front', tail', he⟩ := e.exists_taggedParts
  rw [hd.layout, he.layout] at h
  obtain ⟨rfl, rfl⟩ := Text.append_inj_of_stop hd.mantissa he.mantissa hd.stops he.stops h
  rcases hd.value with ⟨htail, hback⟩ | ⟨htail, hdigits⟩ <;>
    rcases he.value with ⟨htail', hback'⟩ | ⟨htail', hdigits'⟩
  · exact Option.some.inj (hback.symm.trans hback')
  · rw [htail] at htail'
    cases htail'
  · rw [htail] at htail'
    cases htail'
  · have hleading := List.tail_eq_of_cons_eq (htail.symm.trans htail')
    rw [ext_leading (hdigits.symm.trans hdigits') (Text.toString_int_inj hleading)]

end Decimal
/-! ### Numbers -/

namespace Single

/-- The number, with one NaN for all of them. -/
def canonical (x : Single) : Single := if x.isNaN then nan else x

/-- The tagged form behind the sign. -/
def taggedBody (x : Single) : List Char :=
  if x.isInfinite then ['i', 'n', 'f'] else (shortest x.magnitude).tagged

theorem tagged_of_isNaN {x : Single} (h : x.isNaN = true) : x.tagged = "NaN" := by
  rw [tagged, write, if_pos h]

theorem toList_tagged {x : Single} (h : x.isNaN = false) :
    x.tagged.toList = (if x.isNegative then ['-'] else []) ++ x.taggedBody := by
  rw [tagged, write, h, if_neg Bool.false_ne_true, taggedBody]
  cases x.isNegative <;> cases x.isInfinite <;> simp

/-- What stands behind the sign starts with a digit, or it is `inf`. -/
theorem taggedBody_starts (x : Single) : Text.Starts 'i' x.isInfinite x.taggedBody := by
  unfold taggedBody
  cases x.isInfinite with
  | true => exact ⟨'i', ['n', 'f'], rfl, .inl ⟨rfl, rfl⟩⟩
  | false =>
    obtain ⟨front, tail, hparts⟩ := (shortest x.magnitude).exists_taggedParts
    have hstarts := hparts.starts
    cases front with
    | nil => cases hstarts
    | cons c cs => exact ⟨c, cs ++ tail, hparts.layout, .inr ⟨rfl, hstarts⟩⟩

/-- The first character of a negative number or NaN. -/
def isMark (c : Char) : Bool := c = '-' || c = 'N'

theorem taggedBody_unmarked (x : Single) : x.taggedBody.head?.any isMark = false := by
  refine x.taggedBody_starts.head?_any rfl fun c hc => ?_
  rw [isMark, Bool.or_eq_true, decide_eq_true_eq, decide_eq_true_eq] at hc
  rcases hc with rfl | rfl <;> rfl

theorem marks_sign (x : Single) : (if x.isNegative then ['-'] else []).all isMark = true := by
  cases x.isNegative <;> rfl

theorem magnitude_eq_of_taggedBody {x y : Single} (hx : x.isNaN = false) (hy : y.isNaN = false)
    (h : x.taggedBody = y.taggedBody) : x.magnitude = y.magnitude := by
  have hinfinite : x.isInfinite = y.isInfinite :=
    (h ▸ x.taggedBody_starts).flag_eq y.taggedBody_starts rfl
  rw [taggedBody, taggedBody, ← hinfinite] at h
  cases hxi : x.isInfinite with
  | true =>
    rw [hxi] at hinfinite
    exact (of_decide_eq_true hxi).trans (of_decide_eq_true hinfinite.symm).symm
  | false =>
    rw [hxi, if_neg Bool.false_ne_true, if_neg Bool.false_ne_true] at h
    have hfinite : x.magnitude < infinityMagnitude :=
      of_decide_eq_true (isFinite_iff.2 ⟨hx, hxi⟩)
    have hfinite' : y.magnitude < infinityMagnitude :=
      of_decide_eq_true (isFinite_iff.2 ⟨hy, hinfinite ▸ hxi⟩)
    calc x.magnitude = (shortest x.magnitude).magnitude := (magnitude_shortest hfinite).symm
      _ = (shortest y.magnitude).magnitude := Decimal.magnitude_eq_of_tagged h
      _ = y.magnitude := magnitude_shortest hfinite'

/-- **Numbers other than NaN are told apart by their tagged form.** -/
theorem eq_of_tagged {x y : Single} (hx : x.isNaN = false) (hy : y.isNaN = false)
    (h : x.tagged = y.tagged) : x = y := by
  have htext := congrArg String.toList h
  rw [toList_tagged hx, toList_tagged hy] at htext
  obtain ⟨hsign, hbody⟩ := Text.append_inj_of_stop x.marks_sign y.marks_sign x.taggedBody_unmarked
    y.taggedBody_unmarked htext
  refine ext_magnitude ?_ (magnitude_eq_of_taggedBody hx hy hbody)
  cases hxn : x.isNegative <;> cases hyn : y.isNegative <;> simp [hxn, hyn] at hsign ⊢

theorem tagged_ne_of_isNaN {x y : Single} (hx : x.isNaN = true) (hy : y.isNaN = false) :
    x.tagged ≠ y.tagged := by
  intro h
  have htext : ['N'] ++ ['a', 'N'] = (if y.isNegative then ['-'] else []) ++ y.taggedBody := by
    rw [← toList_tagged hy, ← h, tagged_of_isNaN hx]
    rfl
  obtain ⟨hsign, -⟩ := Text.append_inj_of_stop (by decide) y.marks_sign (by decide)
    y.taggedBody_unmarked htext
  cases hyn : y.isNegative <;> simp [hyn] at hsign

/-- **A tagged number is told from every other,** up to which NaN it is. -/
theorem tagged_eq_iff {x y : Single} : x.tagged = y.tagged ↔ x.canonical = y.canonical := by
  unfold canonical
  cases hx : x.isNaN <;> cases hy : y.isNaN
  · exact ⟨eq_of_tagged hx hy, fun h => congrArg tagged h⟩
  · refine iff_of_false (tagged_ne_of_isNaN hy hx).symm fun h => ?_
    have hself : x = nan := h
    rw [hself] at hx
    cases hx
  · refine iff_of_false (tagged_ne_of_isNaN hx hy) fun h => ?_
    have hself : nan = y := h
    rw [← hself] at hy
    cases hy
  · exact iff_of_true ((tagged_of_isNaN hx).trans (tagged_of_isNaN hy).symm) rfl

theorem tagged_canonical (x : Single) : x.canonical.tagged = x.tagged := by
  cases hx : x.isNaN with
  | true => rw [canonical, if_pos hx, tagged_of_isNaN hx, tagged_of_isNaN (by decide)]
  | false => rw [canonical, hx, if_neg Bool.false_ne_true]

/-- A tagged number stays in its line. -/
theorem newline_notMem_tagged (x : Single) : '\n' ∉ x.tagged.toList := by
  cases hx : x.isNaN with
  | true =>
    rw [tagged_of_isNaN hx]
    decide
  | false =>
    rw [toList_tagged hx, List.mem_append, not_or]
    refine ⟨?_, ?_⟩
    · cases x.isNegative <;> decide
    · unfold taggedBody
      split
      · decide
      · obtain ⟨front, tail, hparts⟩ := (shortest x.magnitude).exists_taggedParts
        rw [hparts.layout, List.mem_append, not_or]
        refine ⟨fun hmem => absurd (List.all_eq_true.1 hparts.mantissa _ hmem) (by decide), ?_⟩
        rcases hparts.value with ⟨rfl, -⟩ | ⟨rfl, -⟩
        · exact List.not_mem_nil
        · rw [List.mem_cons, not_or]
          exact ⟨by decide, Text.newline_notMem_int _⟩

end Single
end FieldScript
