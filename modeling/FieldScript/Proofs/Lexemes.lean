/-
# Longest tokens and the pieces of a text

The scanner takes the longest token that fits, so what a token is depends on
the characters behind it.  `Longest text rest t` says, kind by kind, that `text`
is the token `t` and that `rest` does not go on with it; `Stuck` says when there
is no token.  One of the two holds of every text that starts with no gap
(`longest_or_stuck`), and the scanner agrees with both (`Longest.lexeme_eq`,
`Stuck.lexeme_eq`).  A token stays what it is when the text behind it is cut
short (`Longest.of_append`), so it is what it is when it stands alone.

A scan cuts a text into pieces, each a gap and a token (`Cut`), up to the end
or to where the text is stuck.  Every text has such a cut
(`exists_cut`), a scan goes through its pieces (`Cut.scanFrom_eq`), and so the
cut decides what the scan returns.
-/

import FieldScript.Proofs.Spelling

namespace FieldScript
namespace Token

/-! ### Block comments -/

/-- The body of a comment stands before the first `*/`. -/
theorem beforeClose_append {body : List Char} (h : beforeClose (body ++ ['*']) = none)
    (rest : List Char) : beforeClose (body ++ '*' :: '/' :: rest) = some body := by
  induction body with
  | nil => rfl
  | cons c body ih =>
    rw [List.cons_append, beforeClose] at h ⊢
    have hhead : (body ++ '*' :: '/' :: rest).head? = (body ++ ['*']).head? := by
      cases body <;> rfl
    split at h
    · cases h
    · rename_i hc
      rw [hhead, if_neg hc, ih (Option.map_eq_none_iff.1 h)]
      rfl

theorem eq_append_of_beforeClose {cs body : List Char} (h : beforeClose cs = some body) :
    beforeClose (body ++ ['*']) = none ∧ ∃ rest, cs = body ++ '*' :: '/' :: rest := by
  induction cs generalizing body with
  | nil => cases h
  | cons c cs ih =>
    rw [beforeClose] at h
    split at h
    · rename_i hc
      cases h
      rw [Bool.and_eq_true, decide_eq_true_eq, decide_eq_true_eq] at hc
      obtain ⟨rfl, hhead⟩ := hc
      obtain ⟨rest, rfl⟩ := List.head?_eq_some_iff.1 hhead
      exact ⟨rfl, rest, rfl⟩
    · rename_i hc
      obtain ⟨body, hbody, rfl⟩ := Option.map_eq_some_iff.1 h
      obtain ⟨hnone, rest, rfl⟩ := ih hbody
      have hhead : (body ++ '*' :: '/' :: rest).head? = (body ++ ['*']).head? := by
        cases body <;> rfl
      rw [hhead] at hc
      refine ⟨?_, rest, rfl⟩
      rw [List.cons_append, beforeClose, if_neg hc, hnone]
      rfl

theorem beforeClose_eq_none_iff {cs : List Char} :
    beforeClose cs = none ↔ ¬['*', '/'] <:+: cs := by
  induction cs with
  | nil => simp [beforeClose]
  | cons c cs ih =>
    have hhead : ['*', '/'] <+: c :: cs ↔ c = '*' ∧ cs.head? = some '/' := by
      cases cs <;> simp [List.cons_prefix_cons, eq_comm]
    rw [beforeClose, List.infix_cons_iff, hhead]
    split <;> simp_all

/-! ### The token at the front -/

/-- `text` is a token and `rest`, which stands behind it, does not go on with it. -/
inductive Longest : List Char → List Char → Token → Prop
  | newline {rest : List Char} : Longest ['\n'] rest .newline
  | lineComment {body rest : List Char} (hbody : body.all (· ≠ '\n'))
      (hrest : rest.head?.any (· ≠ '\n') = false) :
      Longest ('/' :: '/' :: body) rest (.comment (Text.trim (String.ofList body)))
  | blockComment {body rest : List Char} (hbody : beforeClose (body ++ ['*']) = none) :
      Longest ('/' :: '*' :: (body ++ ['*', '/'])) rest
        (.comment (Text.trim (String.ofList body)))
  | number {whole fraction rest : List Char} (hwhole : whole.all Char.isDigit)
      (hfraction : fraction.all Char.isDigit) (hsome : whole ≠ [] ∨ fraction ≠ [])
      (hrest : rest.head?.any Char.isDigit = false)
      (hpoint : fraction = [] → fractionDigits rest = []) :
      Longest (Decimal.partsText whole fraction) rest
        (.number (.ofDecimal false (.ofParts whole fraction)))
  | name {c : Char} {cs rest : List Char} (hc : isNameStart c = true) (hcs : cs.all isNameChar)
      (hrest : rest.head?.any isNameChar = false) :
      Longest (c :: cs) rest (ofName (String.ofList (c :: cs)))
  | operator {c : Char} {rest : List Char} {t : Token}
      (hline : ¬(c = '/' ∧ rest.head? = some '/')) (hblock : ¬(c = '/' ∧ rest.head? = some '*'))
      (h : operator? c rest.head? = some (t, 0)) : Longest [c] rest t
  | pair {c d : Char} {rest : List Char} {t : Token} (h : operator? c (some d) = some (t, 1)) :
      Longest [c, d] rest t

/-- Characters that start an operator whatever follows. -/
def symbols : List Char :=
  ['=', '<', '>', '+', '-', '*', '/', '%', '(', ')', '\x7b', '\x7d', ',', ';']

/-- An operator starts here. -/
def startsOperator (c : Char) (next : Option Char) : Bool :=
  symbols.contains c || (c = '!' && next = some '=') || ((c = '&' || c = '|') && next = some c)

/-- A gap, a line break, a number, a name or an operator starts here. -/
def isExpected (c : Char) (next : Option Char) : Bool :=
  isGap c || c = '\n' || c.isDigit || (c = '.' && next.any Char.isDigit) || isNameStart c ||
    startsOperator c next

/-- No token is read from the front: a comment is open, or nothing starts there. -/
inductive Stuck : List Char → LexFault → Prop
  | comment {body : List Char} (h : ¬['*', '/'] <:+: body) :
      Stuck ('/' :: '*' :: body) .unterminatedComment
  | unexpected {c : Char} {rest : List Char} (h : isExpected c rest.head? = false) :
      Stuck (c :: rest) (.unexpected c)

theorem operator?_eq_none_iff {c : Char} {next : Option Char} :
    operator? c next = none ↔ startsOperator c next = false := by
  unfold operator?
  split
  case h_21 =>
    have hsymbol : symbols.contains c = false := by simp_all [symbols]
    grind [startsOperator]
  all_goals simp [startsOperator, symbols]

theorem isSymbol_of_operator? {c : Char} {next : Option Char} {t : Token} {n : Nat}
    (h : operator? c next = some (t, n)) : isSymbol c = true := by
  unfold operator? at h
  split at h <;> first | rfl | cases h

/-- An operator takes one character or two. -/
theorem operator?_extent {c : Char} {next : Option Char} {t : Token} {n : Nat}
    (h : operator? c next = some (t, n)) : n = 0 ∨ n = 1 ∧ ∃ d, next = some d := by
  unfold operator? at h
  split at h <;> cases h <;> first | exact .inl rfl | exact .inr ⟨rfl, _, rfl⟩

theorem lexeme_lineComment (cs : List Char) :
    lexeme '/' ('/' :: cs) =
      .ok (comment (Text.trim (String.ofList (cs.takeWhile (· ≠ '\n')))),
        (cs.takeWhile (· ≠ '\n')).length + 1) :=
  rfl

theorem lexeme_blockComment (cs : List Char) :
    lexeme '/' ('*' :: cs) = (beforeClose cs).elim (.error .unterminatedComment) fun body =>
      .ok (comment (Text.trim (String.ofList body)), body.length + 3) := by
  cases h : beforeClose cs <;> simp [lexeme, h]

namespace Longest

variable {text rest : List Char} {t : Token}

/-- **A longest token is what the scanner takes.** -/
theorem lexeme_eq (h : Longest text rest t) :
    ∃ c cs, text = c :: cs ∧ isGap c = false ∧ lexeme c (cs ++ rest) = .ok (t, cs.length) := by
  cases h with
  | newline => exact ⟨'\n', [], rfl, rfl, by simp [lexeme]⟩
  | @lineComment body rest hbody hrest =>
    refine ⟨'/', '/' :: body, rfl, rfl, ?_⟩
    rw [List.cons_append, lexeme_lineComment, (Single.takeWhile_of_stop hbody hrest).1]
    rfl
  | @blockComment body rest hbody =>
    refine ⟨'/', '*' :: (body ++ ['*', '/']), rfl, rfl, ?_⟩
    have hclose := beforeClose_append hbody rest
    rw [List.cons_append, List.append_assoc, lexeme_blockComment]
    simp [hclose]
  | @number whole fraction rest hwhole hfraction hsome hrest hpoint =>
    cases whole with
    | nil =>
      have hne : fraction ≠ [] := hsome.resolve_left (· rfl)
      have hhead : (fraction ++ rest).head?.any Char.isDigit = true := by
        cases fraction with
        | nil => exact absurd rfl hne
        | cons d ds =>
          rw [List.all_cons, Bool.and_eq_true] at hfraction
          exact hfraction.1
      refine ⟨'.', fraction, by simp [Decimal.partsText, hne], rfl, ?_⟩
      rw [lexeme_point hhead, (Single.takeWhile_of_stop hfraction hrest).1]
    | cons c whole =>
      refine ⟨c, Decimal.partsText whole fraction, (cons_partsText ..).symm, ?_,
        lexeme_partsText hwhole hfraction hrest hpoint⟩
      rw [List.all_cons, Bool.and_eq_true] at hwhole
      exact isGap_eq_false (by decide) hwhole.1
  | @name c cs rest hc hcs hrest =>
    refine ⟨c, cs, rfl, isGap_eq_false (by decide) hc, ?_⟩
    rw [lexeme_name hc, (Single.takeWhile_of_stop hcs hrest).1]
  | @operator c rest t hline hblock h =>
    have hc := isSymbol_of_operator? h
    exact ⟨c, [], rfl, isGap_of_isSymbol hc, lexeme_symbol hc hline hblock h⟩
  | @pair c d rest t h =>
    have hc := isSymbol_of_operator? h
    have hslash : c ≠ '/' := by
      rintro rfl
      cases h
    exact ⟨c, [d], rfl, isGap_of_isSymbol hc,
      lexeme_symbol hc (fun h => hslash h.1) (fun h => hslash h.1) h⟩

theorem ne_nil (h : Longest text rest t) : text ≠ [] := by
  obtain ⟨c, cs, rfl, -, -⟩ := h.lexeme_eq
  exact List.cons_ne_nil c cs

end Longest

/-- **Where the text is stuck, the scanner reports it.** -/
theorem Stuck.lexeme_eq {cs : List Char} {fault : LexFault} (h : Stuck cs fault) :
    ∃ c rest, cs = c :: rest ∧ isGap c = false ∧ lexeme c rest = .error fault := by
  cases h with
  | @comment body h =>
    refine ⟨'/', '*' :: body, rfl, rfl, ?_⟩
    rw [lexeme_blockComment, beforeClose_eq_none_iff.2 h]
    rfl
  | @unexpected c rest h =>
    simp only [isExpected, Bool.or_eq_false_iff, Bool.and_eq_false_iff,
      decide_eq_false_iff_not] at h
    obtain ⟨⟨⟨⟨⟨hgap, hnewline⟩, hdigit⟩, hpoint⟩, hname⟩, hstart⟩ := h
    have hslash : c ≠ '/' := by
      rintro rfl
      cases hstart
    have hbare : Bare c rest := ⟨hnewline, fun h => hslash h.1, fun h => hslash h.1, hdigit,
      fun h => by simp [h] at hpoint, hname⟩
    refine ⟨c, rest, rfl, hgap, ?_⟩
    rw [lexeme_bare hbare, operator?_eq_none_iff.2 hstart]
    rfl

theorem head?_dropWhile_any (p : Char → Bool) (cs : List Char) :
    (cs.dropWhile p).head?.any p = false := by
  cases hrest : cs.dropWhile p with
  | nil => rfl
  | cons c rest =>
    have hc := List.head?_dropWhile_not p cs
    rw [hrest] at hc
    simpa using hc

theorem exists_partsText (cs : List Char) :
    ∃ whole fraction rest, cs = Decimal.partsText whole fraction ++ rest ∧
      whole.all Char.isDigit ∧ fraction.all Char.isDigit ∧
      rest.head?.any Char.isDigit = false ∧ (fraction = [] → fractionDigits rest = []) := by
  have hcs := (@List.takeWhile_append_dropWhile _ Char.isDigit cs).symm
  have hback := head?_dropWhile_any Char.isDigit cs
  generalize cs.dropWhile Char.isDigit = back at hcs hback
  by_cases hfraction : fractionDigits back = []
  · exact ⟨_, [], back, hcs, List.all_takeWhile, rfl, hback, fun _ => hfraction⟩
  · -- A point with a digit behind it: the number goes on to the last of these digits.
    unfold fractionDigits at hfraction
    split at hfraction
    · rename_i more
      refine ⟨cs.takeWhile Char.isDigit, more.takeWhile Char.isDigit,
        more.dropWhile Char.isDigit, ?_, List.all_takeWhile, List.all_takeWhile,
        head?_dropWhile_any _ _, fun h => absurd h hfraction⟩
      rw [Decimal.partsText, if_neg (by simpa using hfraction), List.append_assoc,
        List.cons_append, List.takeWhile_append_dropWhile, ← hcs]
    · exact absurd rfl hfraction

/-- **The front of a text is a longest token or stuck.** -/
theorem longest_or_stuck {c : Char} (hgap : isGap c = false) (cs : List Char) :
    (∃ tail rest t, cs = tail ++ rest ∧ Longest (c :: tail) rest t) ∨
      ∃ fault, Stuck (c :: cs) fault := by
  -- One case for each kind of token, in the order in which the scanner tries them.
  by_cases hnewline : c = '\n'
  · subst hnewline
    exact .inl ⟨[], cs, _, rfl, .newline⟩
  by_cases hline : c = '/' ∧ cs.head? = some '/'
  · obtain ⟨rfl, hhead⟩ := hline
    obtain ⟨cs, rfl⟩ := List.head?_eq_some_iff.1 hhead
    refine .inl ⟨'/' :: cs.takeWhile (· ≠ '\n'), cs.dropWhile (· ≠ '\n'), _, ?_,
      .lineComment List.all_takeWhile (head?_dropWhile_any _ _)⟩
    rw [List.cons_append, List.takeWhile_append_dropWhile]
  by_cases hblock : c = '/' ∧ cs.head? = some '*'
  · obtain ⟨rfl, hhead⟩ := hblock
    obtain ⟨cs, rfl⟩ := List.head?_eq_some_iff.1 hhead
    cases hbody : beforeClose cs with
    | none => exact .inr ⟨_, .comment (beforeClose_eq_none_iff.1 hbody)⟩
    | some body =>
      obtain ⟨hnone, rest, rfl⟩ := eq_append_of_beforeClose hbody
      exact .inl ⟨'*' :: (body ++ ['*', '/']), rest, _, by simp, .blockComment hnone⟩
  by_cases hdigit : c.isDigit = true
  · obtain ⟨whole, fraction, rest, rfl, hwhole, hfraction, hrest, hpoint⟩ := exists_partsText cs
    have hdigits : (c :: whole).all Char.isDigit := by rw [List.all_cons, hdigit, hwhole]; rfl
    have hnumber := Longest.number hdigits hfraction (.inl (List.cons_ne_nil c whole)) hrest hpoint
    rw [← cons_partsText] at hnumber
    exact .inl ⟨_, rest, _, rfl, hnumber⟩
  by_cases hpoint : c = '.' ∧ cs.head?.any Char.isDigit = true
  · obtain ⟨rfl, hhead⟩ := hpoint
    have hne := takeWhile_ne_nil hhead
    have hnumber := @Longest.number [] _ _ rfl List.all_takeWhile (.inr hne)
      (head?_dropWhile_any Char.isDigit cs) fun h => absurd h hne
    rw [← point_partsText hne] at hnumber
    exact .inl ⟨_, _, _, List.takeWhile_append_dropWhile.symm, hnumber⟩
  by_cases hname : isNameStart c = true
  · exact .inl ⟨_, cs.dropWhile isNameChar, _, List.takeWhile_append_dropWhile.symm,
      .name hname List.all_takeWhile (head?_dropWhile_any _ _)⟩
  cases hoperator : operator? c cs.head? with
  | none =>
    have hstart := operator?_eq_none_iff.1 hoperator
    exact .inr ⟨_, .unexpected (by simp_all [isExpected])⟩
  | some token =>
    obtain hn | ⟨hn, d, hd⟩ := operator?_extent hoperator
    · exact .inl ⟨[], cs, token.1, rfl, .operator hline hblock (by rw [hoperator, ← hn])⟩
    · obtain ⟨rest, rfl⟩ := List.head?_eq_some_iff.1 hd
      exact .inl ⟨[d], rest, token.1, rfl, .pair (by rw [← hn]; exact hoperator)⟩

theorem head?_any_of_append {p : Char → Bool} {cs ds : List Char}
    (h : (cs ++ ds).head?.any p = false) : cs.head?.any p = false := by
  cases cs with
  | nil => rfl
  | cons c cs => exact h

theorem fractionDigits_of_append {cs ds : List Char} (h : fractionDigits (cs ++ ds) = []) :
    fractionDigits cs = [] := by
  unfold fractionDigits at h ⊢
  split
  · rename_i more
    cases more with
    | nil => rfl
    | cons d more =>
      have hd : ¬d.isDigit = true := by
        intro hd
        simp [hd] at h
      exact List.takeWhile_cons_of_neg hd
  · rfl

/-- An operator of one character is one at the end of a text too. -/
theorem operator?_none {c : Char} {next : Option Char} {t : Token}
    (h : operator? c next = some (t, 0)) : operator? c none = some (t, 0) := by
  unfold operator? at h
  split at h <;> cases h <;> rfl

/-- **A token stays longest when the text behind it is cut.** -/
theorem Longest.of_append {text rest back : List Char} {t : Token}
    (h : Longest text (rest ++ back) t) : Longest text rest t := by
  cases h with
  | newline => exact .newline
  | lineComment hbody hrest => exact .lineComment hbody (head?_any_of_append hrest)
  | blockComment hbody => exact .blockComment hbody
  | number hwhole hfraction hsome hrest hpoint =>
    exact .number hwhole hfraction hsome (head?_any_of_append hrest)
      fun hnil => fractionDigits_of_append (hpoint hnil)
  | name hc hcs hrest => exact .name hc hcs (head?_any_of_append hrest)
  | operator hline hblock h =>
    cases rest with
    | nil => exact .operator (by simp) (by simp) (operator?_none h)
    | cons d rest => exact .operator hline hblock h
  | pair h => exact .pair h

/-! ### Pieces -/

/-- A token of a text with the gap before it. -/
structure Piece where
  gap : List Char
  text : List Char
  token : Token

/-- The characters of a piece. -/
def Piece.chars (p : Piece) : List Char := p.gap ++ p.text

/-- The characters of a row of pieces. -/
def joined (ps : List Piece) : List Char := ps.flatMap Piece.chars

theorem joined_cons (p : Piece) (ps : List Piece) : joined (p :: ps) = p.chars ++ joined ps :=
  List.flatMap_cons

/-- The tokens of a row of pieces that starts at `span`. -/
def located (span : Span) : List Piece → List Located
  | [] => []
  | p :: ps => ⟨p.token, span.after p.gap⟩ :: located (span.after p.chars) ps

/-- The scanner takes pieces from the front of a text and leaves the rest. -/
inductive Cut : List Char → List Piece → List Char → Prop
  | stop {left : List Char} : Cut left [] left
  | piece {p : Piece} {rest left : List Char} {ps : List Piece} (hgap : p.gap.all isGap)
      (htext : Longest p.text rest p.token) (hrest : Cut rest ps left) :
      Cut (p.chars ++ rest) (p :: ps) left

theorem scanFrom_gap {gap : List Char} (hgap : gap.all isGap) (span : Span) (cs : List Char) :
    scanFrom span (gap ++ cs) = scanFrom (span.after gap) cs := by
  induction gap generalizing span with
  | nil => rfl
  | cons c gap ih =>
    rw [List.all_cons, Bool.and_eq_true] at hgap
    rw [List.cons_append, scanFrom, if_pos hgap.1]
    exact ih hgap.2 _

theorem scanFrom_longest {text rest : List Char} {t : Token} (h : Longest text rest t)
    (span : Span) :
    scanFrom span (text ++ rest) = (scanFrom (span.after text) rest).map (⟨t, span⟩ :: ·) := by
  obtain ⟨c, cs, rfl, hgap, hlexeme⟩ := h.lexeme_eq
  rw [List.cons_append, scanFrom, if_neg (by simp [hgap]), hlexeme]
  simp only [List.take_left, List.drop_left]
  cases scanFrom (span.after (c :: cs)) rest <;> rfl

namespace Cut

variable {cs left : List Char} {ps : List Piece}

theorem eq_append (h : Cut cs ps left) : cs = joined ps ++ left := by
  induction h with
  | stop => rfl
  | piece _ _ _ ih => rw [ih, joined_cons, List.append_assoc]

/-- **A scan goes through the pieces** and then goes on with what is left. -/
theorem scanFrom_eq (h : Cut cs ps left) (span : Span) :
    scanFrom span cs = (scanFrom (span.after (joined ps)) left).map (located span ps ++ ·) := by
  induction h generalizing span with
  | stop =>
    rename_i left
    change scanFrom span left = (scanFrom span left).map id
    cases scanFrom span left <;> rfl
  | @piece p rest left ps hgap htext _ ih =>
    have hchars : span.after p.chars = (span.after p.gap).after p.text := Span.after_append ..
    have hjoined : span.after (joined (p :: ps)) = (span.after p.chars).after (joined ps) := by
      rw [joined_cons, Span.after_append]
    rw [Piece.chars, List.append_assoc, scanFrom_gap hgap, scanFrom_longest htext, ← hchars, ih,
      hjoined]
    cases scanFrom ((span.after p.chars).after (joined ps)) left <;> rfl

theorem scanFrom_eq_ok (h : Cut cs ps left) (hleft : left.all isGap) (span : Span) :
    scanFrom span cs = .ok (located span ps ++ [⟨.endOfInput, span.after cs⟩]) := by
  have hend := scanFrom_gap hleft (span.after (joined ps)) []
  rw [List.append_nil] at hend
  rw [h.scanFrom_eq, hend, scanFrom, ← Span.after_append, ← h.eq_append]
  rfl

theorem scanFrom_eq_error {gap : List Char} {fault : LexFault} (h : Cut cs ps (gap ++ left))
    (hgap : gap.all isGap) (hleft : Stuck left fault) (span : Span) :
    scanFrom span cs = .error ⟨fault, span.after (joined ps ++ gap)⟩ := by
  obtain ⟨c, rest, rfl, hc, hfault⟩ := hleft.lexeme_eq
  rw [h.scanFrom_eq, scanFrom_gap hgap, scanFrom, if_neg (by simp [hc]), hfault,
    ← Span.after_append]
  rfl

end Cut

/-- **Every text is cut into pieces** up to its last gap or to where it is stuck. -/
theorem exists_cut (cs : List Char) :
    ∃ ps gap left, Cut cs ps (gap ++ left) ∧ gap.all isGap ∧
      (left = [] ∨ ∃ fault, Stuck left fault) := by
  induction hn : cs.length using Nat.strongRecOn generalizing cs with
  | ind n ih =>
    subst hn
    have hcs := (@List.takeWhile_append_dropWhile _ isGap cs).symm
    have hback := head?_dropWhile_any isGap cs
    have hgap : (cs.takeWhile isGap).all isGap := List.all_takeWhile
    generalize cs.takeWhile isGap = gap at hcs hgap
    generalize cs.dropWhile isGap = back at hcs hback
    subst hcs
    cases back with
    | nil => exact ⟨[], gap, [], .stop, hgap, .inl rfl⟩
    | cons c rest =>
      obtain ⟨tail, rest, t, rfl, htext⟩ | hstuck := longest_or_stuck hback rest
      · obtain ⟨ps, gap', left, hcut, hgap', hleft⟩ := ih rest.length (by simp; omega) rest rfl
        have hpiece := @Cut.piece ⟨gap, c :: tail, t⟩ rest (gap' ++ left) ps hgap htext hcut
        rw [Piece.chars, List.append_assoc] at hpiece
        exact ⟨_, gap', left, hpiece, hgap', hleft⟩
      · exact ⟨[], gap, c :: rest, .stop, hgap, .inr hstuck⟩

theorem cut_of_scanFrom_ok {span : Span} {cs : List Char} {tokens : List Located}
    (h : scanFrom span cs = .ok tokens) :
    ∃ ps last, Cut cs ps last ∧ last.all isGap ∧
      tokens = located span ps ++ [⟨.endOfInput, span.after cs⟩] := by
  obtain ⟨ps, gap, left, hcut, hgap, rfl | ⟨fault, hleft⟩⟩ := exists_cut cs
  · rw [List.append_nil] at hcut
    rw [hcut.scanFrom_eq_ok hgap] at h
    exact ⟨ps, gap, hcut, hgap, (Except.ok.inj h).symm⟩
  · rw [hcut.scanFrom_eq_error hgap hleft] at h
    cases h

theorem cut_of_scanFrom_error {span : Span} {cs : List Char} {e : LexError}
    (h : scanFrom span cs = .error e) :
    ∃ ps gap left, Cut cs ps (gap ++ left) ∧ gap.all isGap ∧ Stuck left e.fault ∧
      e.span = span.after (joined ps ++ gap) := by
  obtain ⟨ps, gap, left, hcut, hgap, rfl | ⟨fault, hleft⟩⟩ := exists_cut cs
  · rw [List.append_nil] at hcut
    rw [hcut.scanFrom_eq_ok hgap] at h
    cases h
  · rw [hcut.scanFrom_eq_error hgap hleft] at h
    cases h
    exact ⟨ps, gap, left, hcut, hgap, hleft, rfl⟩

end Token
end FieldScript
