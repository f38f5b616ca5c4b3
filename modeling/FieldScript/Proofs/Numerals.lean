/-
# Printed numbers read back

A finite number is written with the digits of `shortest`, in positional layout,
and read as the single nearest to the decimal that the digits spell.  That this
returns the number is shown in three steps.

* A finite magnitude is nearest to its own value (`nearest_unitsOf`), so the
  exact decimal reads back; `shortest` either tests that a decimal reads back or
  takes the exact one (`magnitude_shortest`).  Trailing zeros may go, since
  rounding depends on the quotient only (`nearest_mul_mul`).
* The layout puts a point into the digits and zeros at their ends.  Neither
  changes the value (`exists_parts`).
* The sign is written apart.  A number is its sign and its magnitude
  (`ext_magnitude`), and `neg` flips the one and keeps the other.

Text that is digits with at most one point between or before them is always read
as a number (`read?_partsText`).
-/

import FieldScript.Single.Text
import Mathlib.Algebra.Group.Nat.Defs

namespace FieldScript

/-! ### Rounding -/

namespace Single

theorem roundDiv_mul_mul (num den : Nat) {c : Nat} (hc : 0 < c) :
    roundDiv (num * c) (den * c) = roundDiv num den := by
  simp only [roundDiv, Nat.mul_div_mul_right _ _ hc, Nat.mul_mod_mul_right, ← Nat.mul_assoc,
    Nat.mul_lt_mul_right hc]

/-- Rounding depends on the quotient only. -/
theorem nearest_mul_mul (num den : Nat) {c : Nat} (hc : 0 < c) :
    nearest (num * c) (den * c) = nearest num den := by
  simp only [nearest, Nat.mul_div_mul_right _ _ hc, Nat.shiftLeft_eq, Nat.mul_right_comm den c,
    roundDiv_mul_mul _ _ hc]

/-- A value of 24 bits and a shift is rounded without loss. -/
theorem nearest_mul_pow {m shift : Nat} (hlog : (m * 2 ^ shift).log2 - 23 = shift) :
    nearest (m * 2 ^ shift) 1 = min infinityMagnitude (shift * 0x800000 + m) := by
  simp only [nearest, Nat.div_one, hlog, Nat.shiftLeft_eq, Nat.one_mul,
    roundDiv_mul_right m (Nat.two_pow_pos shift)]

/-- A finite magnitude is the nearest to its own value. -/
theorem nearest_unitsOf {k : Nat} (h : k < infinityMagnitude) : nearest (unitsOf k) 1 = k := by
  rw [unitsOf]
  split
  case isTrue hk =>
    have hlog : k.log2 < 23 := by
      by_cases h0 : k = 0
      · rw [h0]
        decide
      · exact (Nat.log2_lt h0).2 hk
    have hself : k * 2 ^ 0 = k := by rw [Nat.pow_zero, Nat.mul_one]
    have hnearest : nearest (k * 2 ^ 0) 1 = _ := nearest_mul_pow (by rw [hself]; omega)
    rw [hself] at hnearest
    rw [hnearest]
    omega
  case isFalse hk =>
    have hmod : k % 0x800000 < 0x800000 := Nat.mod_lt _ (by decide)
    have hlog : ((0x800000 + k % 0x800000) * 2 ^ (k / 0x800000 - 1)).log2 =
        23 + (k / 0x800000 - 1) := by
      have hpos := Nat.two_pow_pos (k / 0x800000 - 1)
      refine (Nat.log2_eq_iff (Nat.mul_ne_zero (by omega) (Nat.ne_of_gt hpos))).2 ⟨?_, ?_⟩
      · rw [Nat.pow_add]
        exact Nat.mul_le_mul_right _ (Nat.le_add_right _ _)
      · rw [Nat.add_right_comm, Nat.pow_add]
        exact Nat.mul_lt_mul_of_pos_right (by omega) hpos
    rw [Nat.shiftLeft_eq, nearest_mul_pow (by rw [hlog]; omega)]
    omega

end Single

/-! ### Decimals -/

namespace Decimal

open Single

theorem magnitude_nonneg (n e : Nat) : magnitude ⟨n, e⟩ = nearest (n * 10 ^ e * oneUnits) 1 := by
  have he : ¬(e : Int) < 0 := by omega
  simp only [magnitude, ratio, if_neg he]
  rfl

theorem magnitude_nonpos (n e : Nat) : magnitude ⟨n, -e⟩ = nearest (n * oneUnits) (10 ^ e) := by
  cases e with
  | zero => simp [magnitude, ratio]
  | succ e =>
    have he : -((e + 1 : Nat) : Int) < 0 := by omega
    simp only [magnitude, ratio, if_pos he]
    rw [Int.natAbs_neg]
    rfl

/-- A zero at the end of the digits goes into the exponent. -/
theorem magnitude_div_ten {n : Nat} (e : Int) (h : n % 10 = 0) :
    magnitude ⟨n / 10, e + 1⟩ = magnitude ⟨n, e⟩ := by
  obtain ⟨m, rfl⟩ := Nat.dvd_of_mod_eq_zero h
  rw [Nat.mul_div_cancel_left m (by decide)]
  cases e with
  | ofNat e =>
    have hpow : m * 10 ^ (e + 1) = 10 * m * 10 ^ e := by
      rw [Nat.pow_succ', ← Nat.mul_assoc, Nat.mul_comm m 10]
    exact (magnitude_nonneg m (e + 1)).trans (hpow ▸ (magnitude_nonneg (10 * m) e).symm)
  | negSucc e =>
    have hsucc : Int.negSucc e + 1 = -e := by omega
    have hself : Int.negSucc e = -((e + 1 : Nat) : Int) := by omega
    have hscaled := nearest_mul_mul (m * oneUnits) (10 ^ e) (show 0 < 10 by decide)
    rw [hsucc, hself, magnitude_nonpos, magnitude_nonpos, ← hscaled, Nat.pow_succ, Nat.mul_comm 10 m,
      Nat.mul_right_comm]

theorem magnitude_trimZeros (fuel : Nat) (d : Decimal) :
    (d.trimZeros fuel).magnitude = d.magnitude := by
  induction fuel generalizing d with
  | zero => rfl
  | succ fuel ih =>
    rw [trimZeros]
    split
    case isTrue h => exact (ih _).trans (magnitude_div_ten d.exponent h.2)
    case isFalse => rfl

end Decimal

namespace Single

theorem magnitude_exactDecimal (u : Nat) : (exactDecimal u).magnitude = nearest u 1 := by
  have hexponent : (-149 : Int) = -(149 : Nat) := rfl
  have hunit : Nat.pow 5 149 * oneUnits = 10 ^ 149 := by decide
  rw [exactDecimal, hexponent, Decimal.magnitude_nonpos, Nat.mul_assoc, hunit]
  have hscaled := nearest_mul_mul u 1 (Nat.pow_pos (n := 149) (show 0 < 10 by decide))
  rwa [Nat.one_mul] at hscaled

/-- **The shortest decimal reads back.** -/
theorem magnitude_shortest {k : Nat} (h : k < infinityMagnitude) : (shortest k).magnitude = k := by
  rw [shortest]
  split
  case isTrue h0 => rw [h0]; decide
  case isFalse =>
    rw [Decimal.magnitude_trimZeros]
    cases hfound : (List.range 10).findSome? fun n : Nat => onGrid k (decimalTop (unitsOf k) - n) with
    | none => exact (magnitude_exactDecimal _).trans (nearest_unitsOf h)
    | some d =>
      obtain ⟨n, -, hd⟩ := List.exists_of_findSome?_eq_some hfound
      exact magnitude_of_onGrid hd

end Single
/-! ### Layout -/

namespace Decimal

/-- The characters that a decimal is laid out as: digits, and a point if digits
follow it.  Read back, they are nearest to the same number. -/
structure Parts (d : Decimal) (whole fraction : List Char) : Prop where
  layout : d.plain = whole ++ if fraction = [] then [] else '.' :: fraction
  whole_ne_nil : whole ≠ []
  whole_digits : whole.all Char.isDigit
  fraction_digits : fraction.all Char.isDigit
  reads_back : (ofParts whole fraction).magnitude = d.magnitude

theorem natOfDigits_eq (cs : List Char) : natOfDigits cs = Nat.ofDigitChars 10 cs 0 :=
  Nat.ofDigitChars_eq_foldl.symm

theorem all_digitChars (d : Decimal) : d.digitChars.all Char.isDigit :=
  List.all_eq_true.2 fun _ hc => Nat.isDigit_of_mem_toDigits (by decide) (by decide) hc

theorem all_zeros (n : Nat) : (List.replicate n '0').all Char.isDigit := by simp

theorem natOfDigits_zeros_append (k n : Nat) :
    natOfDigits (List.replicate k '0' ++ Nat.toDigits 10 n) = n := by
  rw [natOfDigits_eq, Nat.ofDigitChars_append, Nat.ofDigitChars_replicate_zero, Nat.mul_zero,
    Nat.ofDigitChars_ten_toDigits]

theorem natOfDigits_append_zeros (n k : Nat) :
    natOfDigits (Nat.toDigits 10 n ++ List.replicate k '0') = n * 10 ^ k := by
  rw [natOfDigits_eq, Nat.ofDigitChars_append, Nat.ofDigitChars_replicate_zero,
    Nat.ofDigitChars_ten_toDigits, Nat.mul_comm]

/-- Zeros behind the digits, unless the value is zero. -/
theorem exists_parts_nonneg (n e : Nat) : ∃ whole, Parts ⟨n, e⟩ whole [] := by
  obtain ⟨k, hk, hvalue⟩ : ∃ k, k = (if n = 0 then 0 else e) ∧ n * 10 ^ k = n * 10 ^ e := by
    by_cases hn : n = 0 <;> simp [hn]
  refine ⟨Nat.toDigits 10 n ++ List.replicate k '0', ?_, ?_, ?_, rfl, ?_⟩
  · have he : (0 : Int) ≤ e := Int.natCast_nonneg e
    rw [plain, if_pos he, if_pos rfl, hk]
    split <;> simp [digitChars, *]
  · simp [Nat.toDigits_ne_nil]
  · rw [List.all_append, all_zeros, Bool.and_true]
    exact all_digitChars ⟨n, e⟩
  · have hzero : (-(([] : List Char).length : Int)) = (0 : Nat) := rfl
    rw [ofParts, hzero, List.append_nil, natOfDigits_append_zeros, magnitude_nonneg, magnitude_nonneg,
      hvalue, Nat.pow_zero, Nat.mul_one]

/-- A point inside the digits. -/
theorem exists_parts_inside {n e : Nat} (he : e ≠ 0) (hlength : e < (Nat.toDigits 10 n).length) :
    ∃ whole fraction, Parts ⟨n, -e⟩ whole fraction := by
  have hdigits : (Nat.toDigits 10 n).all Char.isDigit := all_digitChars ⟨n, -e⟩
  have hneg : ¬(0 : Int) ≤ -e := by omega
  have hsplit := List.take_append_drop ((Nat.toDigits 10 n).length - e) (Nat.toDigits 10 n)
  generalize hwhole : (Nat.toDigits 10 n).take ((Nat.toDigits 10 n).length - e) = whole at hsplit
  generalize hfraction : (Nat.toDigits 10 n).drop ((Nat.toDigits 10 n).length - e) = fraction
    at hsplit
  have hcount : fraction.length = e := by rw [← hfraction, List.length_drop]; omega
  have hfraction_ne : fraction ≠ [] := List.ne_nil_of_length_pos (by omega)
  rw [← hsplit, List.all_append, Bool.and_eq_true] at hdigits
  refine ⟨whole, fraction, ?_, ?_, hdigits.1, hdigits.2, ?_⟩
  · rw [plain, if_neg hneg, Int.natAbs_neg, Int.natAbs_natCast, digitChars, if_pos hlength, hwhole,
      hfraction, if_neg hfraction_ne]
  · rw [← hwhole]
    refine List.ne_nil_of_length_pos ?_
    rw [List.length_take]
    omega
  · rw [ofParts, hsplit, hcount]
    have hvalue := natOfDigits_zeros_append 0 n
    rw [List.replicate_zero, List.nil_append] at hvalue
    rw [hvalue]

/-- Zeros between the point and the digits. -/
theorem exists_parts_below {n e : Nat} (he : e ≠ 0) (hlength : ¬e < (Nat.toDigits 10 n).length) :
    ∃ whole fraction, Parts ⟨n, -e⟩ whole fraction := by
  have hneg : ¬(0 : Int) ≤ -e := by omega
  refine ⟨['0'], List.replicate (e - (Nat.toDigits 10 n).length) '0' ++ Nat.toDigits 10 n, ?_,
    List.cons_ne_nil _ _, rfl, ?_, ?_⟩
  · rw [plain, if_neg hneg, Int.natAbs_neg, Int.natAbs_natCast, digitChars, if_neg hlength, if_neg]
    · rfl
    · simp [Nat.toDigits_ne_nil]
  · rw [List.all_append, all_zeros, Bool.true_and]
    exact all_digitChars ⟨n, -e⟩
  · have hcount : e - (Nat.toDigits 10 n).length + (Nat.toDigits 10 n).length = e := by omega
    rw [ofParts, List.length_append, List.length_replicate, hcount, ← List.append_assoc]
    have hvalue := natOfDigits_zeros_append (e - (Nat.toDigits 10 n).length + 1) n
    rw [List.replicate_succ] at hvalue
    exact congrArg (magnitude ⟨·, -e⟩) hvalue

/-- **Digits laid out positionally read back.** -/
theorem exists_parts (d : Decimal) : ∃ whole fraction, Parts d whole fraction := by
  obtain ⟨n, e⟩ := d
  by_cases he : 0 ≤ e
  · obtain ⟨e, rfl⟩ := Int.eq_ofNat_of_zero_le he
    obtain ⟨whole, h⟩ := exists_parts_nonneg n e
    exact ⟨whole, [], h⟩
  · obtain ⟨e, rfl⟩ := Int.exists_eq_neg_ofNat (by omega : e ≤ 0)
    by_cases hlength : e < (Nat.toDigits 10 n).length
    · exact exists_parts_inside (by omega) hlength
    · exact exists_parts_below (by omega) hlength

end Decimal
/-! ### Signs -/

namespace Single

theorem isFinite_iff {x : Single} :
    x.isFinite = true ↔ x.isNaN = false ∧ x.isInfinite = false := by
  simp only [isFinite, isNaN, isInfinite, decide_eq_true_eq, decide_eq_false_iff_not]
  omega

/-- A number is its sign and its magnitude. -/
theorem ext_magnitude {x y : Single} (hsign : x.isNegative = y.isNegative)
    (hmagnitude : x.magnitude = y.magnitude) : x = y := by
  obtain ⟨a⟩ := x
  obtain ⟨b⟩ := y
  have ha := a.toNat_lt
  have hb := b.toNat_lt
  simp only [isNegative, decide_eq_decide] at hsign
  simp only [magnitude] at hmagnitude
  have hbits : a.toNat = b.toNat := by omega
  rw [UInt32.toNat_inj.1 hbits]

theorem toNat_bits_ofMagnitude (negative : Bool) {k : Nat} (h : k < 0x80000000) :
    (ofMagnitude negative k).bits.toNat = if negative then 0x80000000 + k else k := by
  refine UInt32.toNat_ofNat_of_lt ?_
  change (if negative then 0x80000000 + k else k) < 4294967296
  split <;> omega

theorem magnitude_ofMagnitude (negative : Bool) {k : Nat} (h : k < 0x80000000) :
    (ofMagnitude negative k).magnitude = k := by
  rw [magnitude, toNat_bits_ofMagnitude negative h]
  split <;> omega

theorem isNegative_ofMagnitude (negative : Bool) {k : Nat} (h : k < 0x80000000) :
    (ofMagnitude negative k).isNegative = negative := by
  rw [isNegative, toNat_bits_ofMagnitude negative h]
  cases negative with
  | false => exact decide_eq_false (Nat.not_le.2 h)
  | true => exact decide_eq_true (Nat.le_add_right _ _)

theorem toNat_bits_neg (x : Single) : x.neg.bits.toNat = x.bits.toNat ^^^ 2 ^ 31 :=
  UInt32.toNat_xor ..

theorem magnitude_neg (x : Single) : x.neg.magnitude = x.magnitude := by
  have hmod := Nat.xor_mod_two_pow (a := x.bits.toNat) (b := 2 ^ 31) (n := 31)
  rwa [Nat.mod_self, Nat.xor_zero, ← toNat_bits_neg] at hmod

theorem isNegative_neg (x : Single) : x.neg.isNegative = !x.isNegative := by
  have hdiv := Nat.xor_div_two_pow (a := x.bits.toNat) (b := 2 ^ 31) (n := 31)
  rw [Nat.div_self (by decide), ← toNat_bits_neg] at hdiv
  have hlt := x.bits.toNat_lt
  rw [isNegative, isNegative, ← decide_not, decide_eq_decide]
  obtain h | h : x.bits.toNat / 2 ^ 31 = 0 ∨ x.bits.toNat / 2 ^ 31 = 1 := by omega
  · rw [h, Nat.zero_xor] at hdiv
    omega
  · rw [h, Nat.xor_self] at hdiv
    omega

/-- **A finite number reads back** from the digits it is written with and its sign. -/
theorem exists_parts_of_isFinite {x : Single} (h : x.isFinite = true) :
    ∃ whole fraction, (shortest x.magnitude).Parts whole fraction ∧
      ∀ y, y = ofDecimal false (.ofParts whole fraction) →
        (if x.isNegative then y.neg else y) = x := by
  obtain ⟨whole, fraction, hparts⟩ := (shortest x.magnitude).exists_parts
  refine ⟨whole, fraction, hparts, ?_⟩
  rintro _ rfl
  rw [ofDecimal, hparts.reads_back, magnitude_shortest (of_decide_eq_true h)]
  have hsign := isNegative_ofMagnitude false x.magnitude_lt
  have hmagnitude := magnitude_ofMagnitude false x.magnitude_lt
  split
  case isTrue hneg =>
    refine ext_magnitude ?_ ((magnitude_neg _).trans hmagnitude)
    rw [isNegative_neg, hsign, hneg]
    rfl
  case isFalse hpos => exact ext_magnitude (hsign.trans (Bool.eq_false_iff.2 hpos).symm) hmagnitude

/-! ### Digits that are read -/

/-- A run of characters of one kind ends where one of another kind follows. -/
theorem takeWhile_of_stop {p : Char → Bool} {cs rest : List Char} (hcs : cs.all p)
    (hrest : rest.head?.any p = false) :
    (cs ++ rest).takeWhile p = cs ∧ (cs ++ rest).dropWhile p = rest := by
  rw [List.takeWhile_append_of_pos (List.all_eq_true.1 hcs),
    List.dropWhile_append_of_pos (List.all_eq_true.1 hcs)]
  cases rest with
  | nil => exact ⟨List.append_nil cs, rfl⟩
  | cons c rest =>
    have hc : ¬p c = true := by simpa using hrest
    rw [List.takeWhile_cons_of_neg hc, List.dropWhile_cons_of_neg hc, List.append_nil]
    exact ⟨rfl, rfl⟩

theorem takeWhile_of_all {p : Char → Bool} {cs : List Char} (h : cs.all p) :
    cs.takeWhile p = cs ∧ cs.dropWhile p = [] := by
  have hstop := @takeWhile_of_stop p cs [] h rfl
  rwa [List.append_nil] at hstop

/-- **Digits with a point between them are a decimal,** if there is a digit. -/
theorem readDecimal?_partsText {whole fraction : List Char} (hwhole : whole.all Char.isDigit)
    (hfraction : fraction.all Char.isDigit) (hsome : whole ≠ [] ∨ fraction ≠ []) :
    readDecimal? (Decimal.partsText whole fraction) = some (.ofParts whole fraction) := by
  have hpower : ∀ (d : Decimal) (limit : Int), 0 ≤ limit →
      { d with exponent := d.exponent + max (-limit) (min limit 0) } = d := by
    intro d limit hlimit
    have hzero : max (-limit) (min limit 0) = 0 := by omega
    rw [hzero, Int.add_zero]
  cases fraction with
  | nil =>
    have hne : whole ≠ [] := hsome.resolve_right (· rfl)
    simp only [Decimal.partsText, readDecimal?, takeWhile_of_all hwhole, List.isEmpty_nil, if_true]
    rw [if_neg (by simp [hne])]
    exact congrArg some (hpower _ _ (by omega))
  | cons c cs =>
    have hpoint := @takeWhile_of_stop _ whole ('.' :: c :: cs) hwhole rfl
    simp only [Decimal.partsText, readDecimal?, hpoint, List.isEmpty_cons, Bool.false_eq_true,
      if_false, takeWhile_of_all hfraction]
    rw [if_neg (by simp)]
    exact congrArg some (hpower _ _ (by omega))

/-- Digits and points keep their case. -/
theorem toLower_of_isDigit {c : Char} (h : c.isDigit = true ∨ c = '.') : c.toLower = c := by
  rcases h with h | rfl
  · have hle : c.toNat ≤ 57 := of_decide_eq_true ((Bool.and_eq_true _ _).mp h).2
    refine dif_neg ?_
    rintro ⟨hge, -⟩
    have hge : 65 ≤ c.toNat := hge
    omega
  · rfl

/-- **Digits with a point between them are read as a number.** -/
theorem read?_partsText {whole fraction : List Char} (hwhole : whole.all Char.isDigit)
    (hfraction : fraction.all Char.isDigit) (hsome : whole ≠ [] ∨ fraction ≠ []) :
    read? (String.ofList (Decimal.partsText whole fraction)) =
      some (ofDecimal false (.ofParts whole fraction)) := by
  obtain ⟨c, cs, htext, hc⟩ : ∃ c cs, Decimal.partsText whole fraction = c :: cs ∧
      (c.isDigit = true ∨ c = '.') := by
    unfold Decimal.partsText
    cases whole with
    | nil =>
      have hne : fraction.isEmpty = false := by simpa using hsome
      exact ⟨'.', fraction, by rw [hne]; rfl, .inr rfl⟩
    | cons d ds =>
      have hd : d.isDigit = true := (Bool.and_eq_true_iff.1 hwhole).1
      split
      · exact ⟨d, ds, rfl, .inl hd⟩
      · exact ⟨d, ds ++ '.' :: fraction, rfl, .inl hd⟩
  have hsign : splitSign (c :: cs) = (false, c :: cs) := by
    unfold splitSign
    split
    · rename_i heq
      cases heq
      simp at hc
    · rename_i heq
      cases heq
      simp at hc
    · rfl
  -- the first character is no letter, so the text is none of the words
  have hword : ∀ w : String, w.toList.head? = some 'i' ∨ w.toList.head? = some 'n' →
      String.ofList ((c :: cs).map Char.toLower) ≠ w := by
    rintro w hw rfl
    rw [String.toList_ofList, List.map_cons, toLower_of_isDigit hc, List.head?_cons] at hw
    rcases hw with hw | hw <;> cases hw <;> simp at hc
  have hdecimal := readDecimal?_partsText hwhole hfraction hsome
  rw [htext] at hdecimal ⊢
  simp only [read?, String.toList_ofList, hsign, hdecimal, hword "inf" (by decide),
    hword "infinity" (by decide), hword "nan" (by decide), decide_false, Bool.or_self,
    Bool.false_eq_true, if_false, Option.map_some]

end Single
end FieldScript
