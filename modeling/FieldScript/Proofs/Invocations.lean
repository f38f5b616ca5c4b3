/-
# Rows of arguments

A setting is looked at only when the next argument was recognised, so reading
goes on with something left to look at.  `Reading.Takes` says what a piece of a
row does to a reading, both meant with nothing left to look at.  Pieces one after
the other compose, and the rows of two kinds of calls are put together from them:
calls that run a program (`Invocation.ofArguments_run`) and calls that write an
artifact (`Invocation.ofArguments_emit`).
-/

import FieldScript.Command.Arguments
import Mathlib.Data.List.TakeWhile

namespace FieldScript
namespace Arguments

/-- The argument is not taken for an option. -/
def Plain (argument : String) : Prop := argument.toList.head? ≠ some '-'

instance (argument : String) : Decidable (Plain argument) :=
  inferInstanceAs (Decidable (argument.toList.head? ≠ some '-'))

/-- The argument is the name of a setting. -/
def Calls (option : String) (setting : Setting) : Prop :=
  ∃ c cs, option.toList = '-' :: '-' :: c :: cs ∧ (c :: cs).all (· ≠ '=') = true ∧
    switch? (String.ofList (c :: cs)) = none ∧ setting? (String.ofList (c :: cs)) = some setting

theorem calls_set : Calls "--set" .set :=
  ⟨'s', ['e', 't'], by decide, by decide, by decide, by decide⟩

theorem calls_seed : Calls "--seed" .seed :=
  ⟨'s', ['e', 'e', 'd'], by decide, by decide, by decide, by decide⟩

theorem calls_emit : Calls "--emit" .emit :=
  ⟨'e', ['m', 'i', 't'], by decide, by decide, by decide, by decide⟩

namespace Reading

variable {q r t u : Reading} {rest : List String}

theorem waiting_of_accept {setting : Setting} {value : String}
    (h : r.accept setting value = .ok t) : t.waiting = r.waiting := by
  unfold accept at h
  cases setting <;> simp only at h <;> repeat' split at h
  all_goals cases h
  all_goals rfl

/-- Nothing waits once it was looked at. -/
theorem waiting_of_settle (h : q.settle = .ok r) : r.waiting = none := by
  unfold settle at h
  split at h
  · rename_i hnone
    cases h
    exact hnone
  · cases h
  · exact waiting_of_accept h

theorem all_plain {argument : String} (h : Plain argument) :
    q.all false (argument :: rest) = (q.plain argument >>= fun q => q.all false rest) := by
  rw [all]
  unfold Plain at h
  simp only [Bool.false_eq_true, if_false]
  split
  · rename_i heq; simp [heq] at h
  · rename_i heq; simp [heq] at h
  · rename_i heq; simp [heq] at h
  · rfl

theorem all_long {option : String} {c : Char} {cs : List Char}
    (h : option.toList = '-' :: '-' :: c :: cs) :
    q.all false (option :: rest) = (q.long (c :: cs) >>= fun q => q.all false rest) := by
  rw [all]
  simp only [Bool.false_eq_true, if_false, h]

theorem long_setting {cs : List Char} {setting : Setting} (hname : cs.all (· ≠ '=') = true)
    (hswitch : switch? (String.ofList cs) = none)
    (hsetting : setting? (String.ofList cs) = some setting) :
    q.long cs = (q.settle >>= fun r => .ok { r with waiting := some (setting, none) }) := by
  have htake : cs.takeWhile (· ≠ '=') = cs := by
    rw [List.takeWhile_eq_self_iff]
    exact List.all_eq_true.1 hname
  have hdrop : cs.dropWhile (· ≠ '=') = [] := by
    rw [List.dropWhile_eq_nil_iff]
    exact List.all_eq_true.1 hname
  simp only [long, htake, hdrop, hswitch, hsetting]
  rfl

theorem long_joined {cs value : List Char} {setting : Setting} (hname : cs.all (· ≠ '=') = true)
    (hswitch : switch? (String.ofList cs) = none)
    (hsetting : setting? (String.ofList cs) = some setting) :
    q.long (cs ++ '=' :: value) =
      (q.settle >>= fun r => r.accept setting (String.ofList value)) := by
  have htake : (cs ++ '=' :: value).takeWhile (· ≠ '=') = cs := by
    rw [List.takeWhile_append_of_pos (List.all_eq_true.1 hname)]
    simp
  have hdrop : (cs ++ '=' :: value).dropWhile (· ≠ '=') = '=' :: value := by
    rw [List.dropWhile_append_of_pos (List.all_eq_true.1 hname)]
    simp
  simp only [long, htake, hdrop, hswitch, hsetting]

/-- Arguments take one reading to another, whatever follows them; both are meant
with nothing left to look at. -/
def Takes (args : List String) (r t : Reading) : Prop :=
  ∀ q : Reading, q.settle = .ok r →
    ∃ q' : Reading, q'.settle = .ok t ∧ ∀ rest, q.all false (args ++ rest) = q'.all false rest

namespace Takes

theorem nil (r : Reading) : Takes [] r r := fun q hq => ⟨q, hq, fun _ => rfl⟩

theorem append {as bs : List String} (ha : Takes as r t) (hb : Takes bs t u) :
    Takes (as ++ bs) r u := by
  intro q hq
  obtain ⟨q', hq', ha⟩ := ha q hq
  obtain ⟨q'', hq'', hb⟩ := hb q' hq'
  exact ⟨q'', hq'', fun rest => by rw [List.append_assoc, ha, hb]⟩

/-- A setting and its value, in two arguments. -/
theorem setting {option value : String} {setting : Setting} (hcalls : Calls option setting)
    (hvalue : Plain value) (haccept : r.accept setting value = .ok t) :
    Takes [option, value] r t := by
  intro q hq
  obtain ⟨c, cs, hoption, hname, hswitch, hsetting⟩ := hcalls
  have hwaiting := waiting_of_settle hq
  refine ⟨{ r with waiting := some (setting, some value) }, ?_, fun rest => ?_⟩
  · have hnone : { r with waiting := none } = r := by rw [← hwaiting]
    rw [settle]
    dsimp only
    rw [hnone, haccept]
  · rw [List.cons_append, all_long hoption, long_setting hname hswitch hsetting, hq]
    exact all_plain hvalue

/-- A setting and its value, in one argument. -/
theorem joined {option value : String} {setting : Setting} (hcalls : Calls option setting)
    (haccept : r.accept setting value = .ok t) : Takes [option ++ "=" ++ value] r t := by
  intro q hq
  obtain ⟨c, cs, hoption, hname, hswitch, hsetting⟩ := hcalls
  have hwaiting : t.waiting = none := (waiting_of_accept haccept).trans (waiting_of_settle hq)
  have htext : (option ++ "=" ++ value).toList =
      '-' :: '-' :: c :: (cs ++ '=' :: value.toList) := by
    simp [String.toList_append, hoption]
  refine ⟨t, by rw [settle, hwaiting], fun rest => ?_⟩
  rw [List.cons_append, all_long htext, ← List.cons_append, long_joined hname hswitch hsetting, hq,
    String.ofList_toList]
  show (r.accept setting value >>= fun q => q.all false rest) = _
  rw [haccept]
  rfl

/-- The switch for a listing. -/
theorem listing (h : r.switches.contains .listing = false) :
    Takes ["--bc"] r { r with switches := .listing :: r.switches } := by
  intro q hq
  have hwaiting := waiting_of_settle hq
  have hlong : q.long ['b', 'c'] = .ok { r with switches := .listing :: r.switches } := by
    have hturn : q.long ['b', 'c'] = q.turnOn .listing := rfl
    rw [hturn, turnOn, hq]
    exact if_neg (by rw [h]; exact Bool.false_ne_true)
  have hoption : "--bc".toList = ['-', '-', 'b', 'c'] := by decide
  refine ⟨{ r with switches := .listing :: r.switches }, by rw [settle, hwaiting], fun rest => ?_⟩
  rw [List.cons_append, all_long hoption, hlong]
  rfl

end Takes
end Reading

/-- Arguments that set fields, each as `--set NAME=VALUE` or as
`--set=NAME=VALUE`. -/
inductive Sets : List String → List (String × Single) → Prop
  | nil : Sets [] []
  | apart {text : String} {field : String × Single} {args : List String}
      {set : List (String × Single)} (hplain : Plain text) (hread : readAssignment text = .ok field)
      (h : Sets args set) : Sets (["--set", text] ++ args) (field :: set)
  | joined {text : String} {field : String × Single} {args : List String}
      {set : List (String × Single)} (hread : readAssignment text = .ok field)
      (h : Sets args set) : Sets (["--set=" ++ text] ++ args) (field :: set)

theorem Sets.takes {args : List String} {set : List (String × Single)} (h : Sets args set)
    (r : Reading) : Reading.Takes args r { r with set := r.set ++ set } := by
  have haccept {text : String} {field : String × Single} (hread : readAssignment text = .ok field)
      (r : Reading) : r.accept .set text = .ok { r with set := r.set ++ [field] } := by
    rw [Reading.accept, hread]
  induction h generalizing r with
  | nil =>
    rw [List.append_nil]
    exact .nil r
  | @apart text field args set hplain hread _ ih =>
    have hrest := ih { r with set := r.set ++ [field] }
    rw [List.append_assoc] at hrest
    exact .append (.setting calls_set hplain (haccept hread r)) hrest
  | @joined text field args set hread _ ih =>
    have hrest := ih { r with set := r.set ++ [field] }
    rw [List.append_assoc] at hrest
    have hoption : "--set=" ++ text = "--set" ++ "=" ++ text :=
      congrArg (· ++ text) (by decide : "--set=" = "--set" ++ "=")
    rw [hoption]
    exact .append (.joined calls_set (haccept hread r)) hrest

/-! ### Seeds -/

theorem toList_toString (n : Nat) : (toString n).toList = Nat.toDigits 10 n := by simp

theorem isDigit_of_mem_toDigits {n : Nat} {c : Char} (h : c ∈ Nat.toDigits 10 n) :
    c.isDigit = true :=
  Nat.isDigit_of_mem_toDigits (by decide) (by decide) h

theorem le_ofDigitChars (cs : List Char) (n : Nat) : n ≤ Nat.ofDigitChars 10 cs n := by
  induction cs generalizing n with
  | nil => exact Nat.le_refl n
  | cons c cs ih =>
    have := ih (10 * n + (c.toNat - '0'.toNat))
    rw [Nat.ofDigitChars_cons]
    omega

/-- Digits are read if what they stand for is small enough: then so is what any
first part of them stands for. -/
theorem foldlM_seedDigit {cs : List Char} (hdigits : ∀ c ∈ cs, c.isDigit = true) {n : Nat}
    (h : Nat.ofDigitChars 10 cs n < UInt64.size) :
    cs.foldlM seedDigit n = .ok (Nat.ofDigitChars 10 cs n) := by
  induction cs generalizing n with
  | nil => rfl
  | cons c cs ih =>
    rw [List.forall_mem_cons] at hdigits
    rw [Nat.ofDigitChars_cons] at h ⊢
    have hle := le_ofDigitChars cs (10 * n + (c.toNat - '0'.toNat))
    have hsmall : ¬UInt64.size ≤ 10 * n + (c.toNat - '0'.toNat) := by omega
    have hdigit : seedDigit n c = .ok (10 * n + (c.toNat - '0'.toNat)) := by
      simp only [seedDigit, hdigits.1, if_neg hsmall]
      rfl
    rw [List.foldlM_cons, hdigit]
    exact ih hdigits.2 h

/-- A seed is read back from its decimal digits. -/
theorem readSeed_toString (seed : UInt64) : readSeed (toString seed.toNat) = .ok seed := by
  have hdigits : ∀ c ∈ Nat.toDigits 10 seed.toNat, c.isDigit = true :=
    fun _ => isDigit_of_mem_toDigits
  have hvalue : Nat.ofDigitChars 10 (Nat.toDigits 10 seed.toNat) 0 = seed.toNat :=
    Nat.ofDigitChars_ten_toDigits
  have hsign : unsigned (Nat.toDigits 10 seed.toNat) = Nat.toDigits 10 seed.toNat := by
    unfold unsigned
    split
    · rename_i heq
      exact heq.symm
    · rename_i heq
      have hplus := hdigits '+' (by rw [heq]; exact List.mem_cons_self ..)
      exact absurd hplus (by decide)
    · rfl
  have hne : ¬(Nat.toDigits 10 seed.toNat).isEmpty = true := fun h =>
    Nat.toDigits_ne_nil (List.isEmpty_iff.1 h)
  have hfold : (Nat.toDigits 10 seed.toNat).foldlM seedDigit 0 = .ok seed.toNat := by
    rw [foldlM_seedDigit hdigits (by rw [hvalue]; exact seed.toNat_lt), hvalue]
  rw [readSeed, toList_toString, hsign]
  dsimp only
  rw [if_neg hne, hfold]
  exact congrArg Except.ok seed.ofNat_toNat

theorem plain_toString (n : Nat) : Plain (toString n) := by
  intro hhead
  rw [toList_toString] at hhead
  have hdigit := isDigit_of_mem_toDigits (List.mem_of_head? hhead)
  revert hdigit
  decide

end Arguments

namespace Invocation

open Arguments

/-- An invocation without options. -/
def ofFile (file : String) : Invocation :=
  { file, tokens := false, noColor := false, pretty := false, ast := false, listing := false,
    emit := none, seed := none, set := [], verbosity := 0 }

/-- The reading of a file and nothing else. -/
def readingOf (file : String) : Reading := ⟨[], 0, some file, none, none, [], none, true⟩

theorem isEmpty_eq_false {text : String} (h : text ≠ "") : text.isEmpty = false := by
  rw [Bool.eq_false_iff]
  exact fun hempty => h (String.isEmpty_iff.1 hempty)

theorem ofArguments_of_takes {file : String} {args : List String} {t : Reading} (hfile : Plain file)
    (hne : file ≠ "") (h : Reading.Takes args (readingOf file) t)
    (ht : t.file = some file) :
    ofArguments (file :: args) = .ok {
      file
      tokens := t.switches.contains .tokens
      noColor := t.switches.contains .noColor
      pretty := t.switches.contains .pretty
      ast := t.switches.contains .ast
      listing := t.switches.contains .listing
      emit := t.emit
      seed := t.seed
      set := t.set
      verbosity := t.verbosity } := by
  have hsettle : Reading.settle ⟨[], 0, none, none, none, [], some (.file, some file), true⟩ =
      .ok (readingOf file) := by
    simp [Reading.settle, Reading.accept, isEmpty_eq_false hne, readingOf]
  obtain ⟨q, hq, hall⟩ := h _ hsettle
  have hrow : Reading.start.all false (file :: args) = .ok t := by
    rw [Reading.all_plain hfile]
    have hlast := hall []
    rw [List.append_nil] at hlast
    exact hlast.trans hq
  simp only [ofArguments, hrow, bind, Except.bind, ht]
  rfl

/-- The switch for a listing, or nothing. -/
def listingOption (listing : Bool) : List String := if listing then ["--bc"] else []

/-- **A call that runs a program.** -/
theorem ofArguments_run {file : String} {sets : List String} {set : List (String × Single)}
    (hfile : Plain file) (hne : file ≠ "") (hsets : Sets sets set) (seed : UInt64) (listing : Bool) :
    ofArguments (file :: (sets ++ ["--seed", toString seed.toNat] ++ listingOption listing)) =
      .ok { ofFile file with listing, seed := some seed, set } := by
  have hseed : ∀ r : Reading, r.seed = none →
      Reading.Takes ["--seed", toString seed.toNat] r { r with seed := some seed } := by
    intro r hr
    refine .setting calls_seed (plain_toString _) ?_
    rw [Reading.accept, hr, readSeed_toString]
    rfl
  have htakes := (hsets.takes (readingOf file)).append (hseed _ rfl)
  cases listing with
  | false =>
    have hrow := ofArguments_of_takes hfile hne htakes rfl
    rwa [← List.append_nil (sets ++ _)] at hrow
  | true => exact ofArguments_of_takes hfile hne (htakes.append (.listing rfl)) rfl

/-- **A call that writes an artifact.** -/
theorem ofArguments_emit {file path : String} {sets : List String} {set : List (String × Single)}
    (hfile : Plain file) (hne : file ≠ "") (hsets : Sets sets set) (hpath : Plain path)
    (hpathNe : path ≠ "") :
    ofArguments (file :: (sets ++ ["--emit", path])) =
      .ok { ofFile file with emit := some path, set } := by
  have hemit : ∀ r : Reading, r.emit = none →
      Reading.Takes ["--emit", path] r { r with emit := some path } := by
    intro r hr
    refine .setting calls_emit hpath ?_
    rw [Reading.accept, hr, isEmpty_eq_false hpathNe]
    rfl
  exact ofArguments_of_takes hfile hne ((hsets.takes (readingOf file)).append (hemit _ rfl)) rfl

end Invocation
end FieldScript
