/-
# Where a scan fails

A scan fails at a place that the text alone determines: a front that scans on
its own, whose last token does not go on behind it, and then a comment that is
never closed or a character that starts nothing (`Stops`).  Only three kinds of
tokens can go on there (`goesOn`): a line comment, a name and a slash.  Numbers
and the other operators cannot, since what would continue them starts a token
and so is not where a scan fails (`Longest.append`).

One direction cuts a failed scan off where it failed (`Cut.of_append`), the
other continues a scan of the front (`Cut.append`).  Places grow along a text,
so the place of the error leaves one front only (`Span.behind_inj`).
-/

import FieldScript.Proofs.Pieces

namespace FieldScript

theorem Span.not_before_self (s : Span) : ¬s.Before s := by
  unfold Span.Before
  omega

/-- **Two fronts of a text that end at one place are the same.** -/
theorem Span.behind_inj {u v u' v' : List Char} (h : u ++ v = u' ++ v')
    (hplace : behind u = behind u') : u = u' := by
  have hlonger : ∀ w more, behind w = behind (w ++ more) → more = [] := by
    intro w more hw
    refine Decidable.byContradiction fun hne => ?_
    have hbefore := before_after (behind w) hne
    rw [after_behind, ← hw] at hbefore
    exact not_before_self _ hbefore
  obtain ⟨more, rfl, -⟩ | ⟨more, rfl, -⟩ := List.append_eq_append_iff.1 h
  · rw [hlonger u more hplace, List.append_nil]
  · rw [hlonger u' more hplace.symm, List.append_nil]

namespace Token

/-! ### Tokens that go on -/

/-- Whether a text, from its last token on, takes more characters of what stands
behind it: a line comment always does, a name does before a character of a name
and a slash before a slash, each with no gap behind it. -/
def goesOn (text behind : List Char) : Bool :=
  match text with
  | [] => false
  | c :: cs =>
    (c = '/' && cs.head? = some '/') ||
      (isNameStart c && cs.all isNameChar && behind.head?.any isNameChar) ||
      (c = '/' && cs.isEmpty && behind.head? = some '/')

/-- What stands where a scan is stuck continues neither a number nor an
operator other than a slash. -/
theorem Stuck.front {cs : List Char} {fault : LexFault} (h : Stuck cs fault) :
    ∃ c rest, cs = c :: rest ∧ isGap c = false ∧ c ≠ '\n' ∧ c.isDigit = false ∧ c ≠ '=' ∧
      c ≠ '*' ∧ fractionDigits cs = [] := by
  cases h with
  | @comment body h => exact ⟨'/', _, rfl, rfl, by decide, rfl, by decide, by decide, rfl⟩
  | @unexpected c rest h =>
    simp only [isExpected, Bool.or_eq_false_iff, Bool.and_eq_false_iff,
      decide_eq_false_iff_not] at h
    obtain ⟨⟨⟨⟨⟨hgap, hnewline⟩, hdigit⟩, hpoint⟩, -⟩, hstart⟩ := h
    have hequal : c ≠ '=' := by
      rintro rfl
      cases hstart
    have hstar : c ≠ '*' := by
      rintro rfl
      cases hstart
    refine ⟨c, rest, rfl, hgap, hnewline, hdigit, hequal, hstar, ?_⟩
    unfold fractionDigits
    split
    · rename_i more hcons
      cases hcons
      exact (@Single.takeWhile_of_stop _ [] _ rfl (hpoint.resolve_left (· rfl))).1
    · rfl

theorem goesOn_cons_of_ne {c : Char} (hc : isNameStart c = false) (hslash : c ≠ '/')
    (cs behind : List Char) : goesOn (c :: cs) behind = false := by
  simp [goesOn, hc, hslash]

theorem goesOn_slash (gap behind : List Char) :
    goesOn ('/' :: gap) behind = decide ((gap ++ behind).head? = some '/') := by
  have hname : isNameStart '/' = false := rfl
  cases gap <;> simp [goesOn, hname]

theorem goesOn_name {c : Char} {cs gap behind : List Char} (hc : isNameStart c = true)
    (hcs : cs.all isNameChar) (h : (gap ++ behind).head?.any isNameChar = false) :
    goesOn (c :: (cs ++ gap)) behind = false := by
  have hslash : c ≠ '/' := by
    rintro rfl
    cases hc
  cases gap with
  | nil => simpa [goesOn, hslash, hc, hcs] using h
  | cons g gap =>
    have hg : isNameChar g = false := h
    simp [goesOn, hslash, hg]

theorem goesOn_number {whole fraction : List Char} (hwhole : whole.all Char.isDigit)
    (hsome : whole ≠ [] ∨ fraction ≠ []) (gap behind : List Char) :
    goesOn (Decimal.partsText whole fraction ++ gap) behind = false := by
  cases whole with
  | nil =>
    rw [← point_partsText (hsome.resolve_left (· rfl))]
    exact goesOn_cons_of_ne rfl (by decide) _ _
  | cons d whole =>
    rw [List.all_cons, Bool.and_eq_true] at hwhole
    rw [← cons_partsText]
    refine goesOn_cons_of_ne (Bool.eq_false_iff.2 fun hname => ?_) ?_ _ _
    · rw [isDigit_of_isNameStart hname] at hwhole
      cases hwhole.1
    · rintro rfl
      cases hwhole.1

/-- **The last token before a fault does not go on.** -/
theorem Longest.goesOn_eq_false {text gap back : List Char} {t : Token} {fault : LexFault}
    (h : Longest text (gap ++ back) t) (hgap : gap.all isGap) (hback : Stuck back fault) :
    goesOn (text ++ gap) back = false := by
  obtain ⟨c, rest, hcons, -, hnewline, -⟩ := hback.front
  generalize hfollow : gap ++ back = follow at h
  cases h with
  | newline => rfl
  | lineComment hbody hrest =>
    -- Only a newline ends the comment, and a newline is neither in a gap nor a fault.
    subst hfollow
    cases gap with
    | nil => simp [hcons, hnewline] at hrest
    | cons d gap =>
      have hd : d = '\n' := by simpa using hrest
      rw [hd] at hgap
      cases hgap
  | blockComment hbody => rfl
  | number hwhole hfraction hsome hrest hpoint => exact goesOn_number hwhole hsome gap back
  | name hd hds hrest =>
    subst hfollow
    exact goesOn_name hd hds hrest
  | @operator d _ t hline hblock h =>
    subst hfollow
    obtain rfl | hslash := Decidable.em (d = '/')
    · exact (goesOn_slash gap back).trans (decide_eq_false fun h => hline ⟨rfl, h⟩)
    · exact goesOn_cons_of_ne (isNameStart_of_isSymbol (isSymbol_of_operator? h)) hslash _ _
  | @pair d d' _ t h =>
    have hslash : d ≠ '/' := by
      rintro rfl
      cases h
    exact goesOn_cons_of_ne (isNameStart_of_isSymbol (isSymbol_of_operator? h)) hslash _ _

/-- A number stays one when what stands behind it grows, unless digits do. -/
theorem fractionDigits_append_stuck {cs back : List Char} (h : fractionDigits cs = [])
    (hdigit : back.head?.any Char.isDigit = false) (hback : fractionDigits back = []) :
    fractionDigits (cs ++ back) = [] := by
  cases cs with
  | nil => exact hback
  | cons c cs =>
    unfold fractionDigits at h ⊢
    rw [List.cons_append]
    split
    · rename_i hcons
      cases hcons
      cases cs with
      | nil => exact (@Single.takeWhile_of_stop _ [] _ rfl hdigit).1
      | cons d cs =>
        have hd : ¬d.isDigit = true := by
          intro hd
          simp [hd] at h
        exact List.takeWhile_cons_of_neg hd
    · rfl

/-- An operator of one character stays one unless `=` follows. -/
theorem operator?_of_none {c : Char} {t : Token} (h : operator? c none = some (t, 0))
    {next : Option Char} (hnext : next ≠ some '=') : operator? c next = some (t, 0) := by
  unfold operator? at h ⊢
  split at h <;> cases h <;> simp_all

/-- **A token that does not go on stays longest before a fault.** -/
theorem Longest.append {text rest back : List Char} {t : Token} {fault : LexFault}
    (h : Longest text rest t) (hback : Stuck back fault)
    (hrest : rest = [] → goesOn text back = false) : Longest text (rest ++ back) t := by
  obtain ⟨c, cs, rfl, -, -, hdigit, hequal, hstar, hfraction⟩ := hback.front
  cases h with
  | newline => exact .newline
  | lineComment hbody hstop =>
    cases rest with
    | nil => cases hrest rfl
    | cons d rest => exact .lineComment hbody hstop
  | blockComment hbody => exact .blockComment hbody
  | number hwhole hfractional hsome hstop hpoint =>
    refine .number hwhole hfractional hsome ?_
      fun hnil => fractionDigits_append_stuck (hpoint hnil) hdigit hfraction
    cases rest with
    | nil => exact hdigit
    | cons d rest => exact hstop
  | @name d ds _ hd hds hstop =>
    refine .name hd hds ?_
    cases rest with
    | nil =>
      have hends := hrest rfl
      simp only [goesOn, hd, hds, Bool.or_eq_false_iff, Bool.true_and] at hends
      exact hends.1.2
    | cons e rest => exact hstop
  | @operator d _ t hline hblock h =>
    cases rest with
    | nil =>
      refine .operator ?_ (fun h => hstar (Option.some.inj h.2))
        (operator?_of_none h fun h => hequal (Option.some.inj h))
      rintro ⟨rfl, hslash⟩
      rw [goesOn_slash] at hrest
      exact of_decide_eq_false (hrest rfl) hslash
    | cons e rest => exact .operator hline hblock h
  | pair h => exact .pair h

/-! ### Cutting and continuing a scan -/

namespace Cut

variable {cs left back : List Char} {ps : List Piece}

/-- **A scan that is cut off takes the same pieces.** -/
theorem of_append (h : Cut cs ps (left ++ back)) : Cut (joined ps ++ left) ps left := by
  generalize hall : left ++ back = all at h
  induction h with
  | stop => exact .stop
  | @piece p rest _ ps hgap htext hrest ih =>
    rw [joined_cons, List.append_assoc]
    refine .piece hgap (@Longest.of_append _ _ back _ ?_) (ih hall)
    rwa [List.append_assoc, hall, ← hrest.eq_append]

/-- What stands behind the last piece is left. -/
theorem longest_last {front : List Piece} {p : Piece} (h : Cut cs (front ++ [p]) left) :
    Longest p.text left p.token := by
  generalize hall : front ++ [p] = all at h
  induction h generalizing front with
  | stop => simp at hall
  | @piece q rest left ps hgap htext hrest ih =>
    cases front with
    | nil =>
      obtain ⟨rfl, rfl⟩ := List.cons.inj hall
      have hleft : rest = left := hrest.eq_append
      rwa [← hleft]
    | cons r front => exact ih (List.cons.inj hall).2

theorem eq_nil (h : Cut [] ps left) : ps = [] ∧ left = [] := by
  have happend := h.eq_append
  cases ps with
  | nil => exact ⟨rfl, happend.symm⟩
  | cons p ps =>
    have htext := (h.of_mem List.mem_cons_self).2.ne_nil
    simp [joined_cons, Piece.chars, htext] at happend

/-- **A scan goes on to a fault** with the same pieces, if its last token does
not go on. -/
theorem append {fault : LexFault} (h : Cut cs ps left) (hback : Stuck back fault)
    (hends : ∀ front p, ps = front ++ [p] → goesOn (p.text ++ left) back = false) :
    Cut (cs ++ back) ps (left ++ back) := by
  induction h with
  | stop => exact .stop
  | @piece p rest left ps hgap htext hrest ih =>
    rw [List.append_assoc]
    refine .piece hgap (htext.append hback ?_) (ih fun front q hps => hends (p :: front) q ?_)
    · -- Nothing stands behind this piece, so it is the last one.
      rintro rfl
      obtain ⟨rfl, rfl⟩ := hrest.eq_nil
      simpa using hends [] p rfl
    · rw [hps, List.cons_append]

end Cut

/-! ### The place of a fault -/

/-- The text of a scanned source from its last token on. -/
def FromLast (u text : List Char) : Prop :=
  ∃ front tokens last stop, u = front ++ text ∧
    scan (String.ofList u) = .ok (tokens ++ [last, stop]) ∧ last.span = Span.behind front

theorem joined_concat (front : List Piece) (p : Piece) :
    joined (front ++ [p]) = joined front ++ p.chars := by
  simp [joined]

theorem located_concat (span : Span) (front : List Piece) (p : Piece) :
    located span (front ++ [p]) =
      located span front ++ [⟨p.token, span.after (joined front ++ p.gap)⟩] := by
  induction front generalizing span with
  | nil => rfl
  | cons q front ih =>
    rw [List.cons_append, located, located, ih, joined_cons, List.append_assoc,
      Span.after_append span, List.cons_append]

/-- The text from the last token on is the last piece, without its gap, and the
gap at the end. -/
theorem fromLast_iff {u gap text : List Char} {ps : List Piece} (h : Cut u ps gap)
    (hgap : gap.all isGap) :
    FromLast u text ↔ ∃ front p, ps = front ++ [p] ∧ text = p.text ++ gap := by
  have hscan : scan (String.ofList u) =
      .ok (located Span.start ps ++ [⟨.endOfInput, Span.start.after u⟩]) := by
    rw [scan, String.toList_ofList, h.scanFrom_eq_ok hgap]
  constructor
  · rintro ⟨before, tokens, last, stop, hu, htokens, hplace⟩
    have hrow := Except.ok.inj (hscan.symm.trans htokens)
    obtain rfl | ⟨front, p, hps⟩ := List.eq_nil_or_concat ps
    · have hlength := congrArg List.length hrow
      simp [located] at hlength
    · rw [List.concat_eq_append] at hps
      subst hps
      have hchars : u = joined front ++ p.gap ++ (p.text ++ gap) := by
        rw [h.eq_append, joined_concat, Piece.chars]
        simp only [List.append_assoc]
      rw [located_concat, List.append_assoc] at hrow
      obtain ⟨-, hlast⟩ := List.append_inj' hrow rfl
      rw [← (List.cons.inj hlast).1, Span.after_start] at hplace
      have hfront := Span.behind_inj (hchars.symm.trans hu) hplace
      rw [hchars, hfront] at hu
      exact ⟨front, p, rfl, (List.append_cancel_left hu).symm⟩
  · rintro ⟨front, p, rfl, rfl⟩
    rw [located_concat, List.append_assoc] at hscan
    refine ⟨joined front ++ p.gap, _, _, _, ?_, hscan, Span.after_start _⟩
    rw [h.eq_append, joined_concat, Piece.chars]
    simp only [List.append_assoc]

/-- A text stops a scan behind its front `u`. -/
structure Stops (u v : List Char) (fault : LexFault) : Prop where
  scanned : ∃ tokens, scan (String.ofList u) = .ok tokens
  ends : ∀ text, FromLast u text → goesOn text v = false
  stuck : Stuck v fault

theorem Stops.scan_eq {source : String} {u v : List Char} {fault : LexFault}
    (h : Stops u v fault) (hsource : source.toList = u ++ v) :
    scan source = .error ⟨fault, Span.behind u⟩ := by
  obtain ⟨tokens, hscan⟩ := h.scanned
  rw [scan, String.toList_ofList] at hscan
  obtain ⟨ps, gap, hcut, hgap, -⟩ := cut_of_scanFrom_ok hscan
  have hgoes := hcut.append h.stuck fun front p hps =>
    h.ends _ ((fromLast_iff hcut hgap).2 ⟨front, p, hps, rfl⟩)
  rw [scan, hsource, hgoes.scanFrom_eq_error hgap h.stuck, ← hcut.eq_append, Span.after_start]

theorem exists_stops {source : String} {e : LexError} (h : scan source = .error e) :
    ∃ u v, source.toList = u ++ v ∧ Stops u v e.fault ∧ e.span = Span.behind u := by
  obtain ⟨ps, gap, left, hcut, hgap, hleft, hspan⟩ := cut_of_scanFrom_error h
  have hfront := hcut.of_append
  refine ⟨joined ps ++ gap, left, ?_, ⟨?_, ?_, hleft⟩, hspan.trans (Span.after_start _)⟩
  · rw [hcut.eq_append, List.append_assoc]
  · exact ⟨_, by rw [scan, String.toList_ofList, hfront.scanFrom_eq_ok hgap]⟩
  · intro text htext
    obtain ⟨front, p, rfl, rfl⟩ := (fromLast_iff hfront hgap).1 htext
    exact hcut.longest_last.goesOn_eq_false hgap hleft

/-- **A scan fails exactly where its text stops it,** which is at one place at
most, and for one of two reasons.  Digits are always read as a number. -/
theorem scan_eq_error_iff (source : String) :
    (∀ e, scan source = .error e ↔
      ∃ u v, source.toList = u ++ v ∧ Stops u v e.fault ∧ e.span = Span.behind u) ∧
    (∀ u v u' v' fault fault', source.toList = u ++ v → source.toList = u' ++ v' →
      Stops u v fault → Stops u' v' fault' → u = u' ∧ v = v' ∧ fault = fault') ∧
    (∀ e, scan source = .error e →
      e.fault = .unterminatedComment ∧ e.fault.message = "unterminated block comment" ∨
      ∃ c, e.fault = .unexpected c ∧
        e.fault.message = "unexpected character: '" ++ String.singleton c ++ "'") ∧
    ∀ digits span, scan source ≠ .error ⟨.invalidNumber digits, span⟩ := by
  have hkinds : ∀ e, scan source = .error e →
      e.fault = .unterminatedComment ∨ ∃ c, e.fault = .unexpected c := by
    intro e h
    obtain ⟨u, v, -, hstops, -⟩ := exists_stops h
    have hstuck := hstops.stuck
    generalize e.fault = fault at hstuck
    cases hstuck with
    | comment => exact .inl rfl
    | @unexpected c => exact .inr ⟨c, rfl⟩
  refine ⟨fun e => ⟨exists_stops, ?_⟩, ?_, ?_, ?_⟩
  · rintro ⟨u, v, hsource, hstops, hspan⟩
    rw [hstops.scan_eq hsource, ← hspan]
  · intro u v u' v' fault fault' hsource hsource' hstops hstops'
    have herror := (hstops.scan_eq hsource).symm.trans (hstops'.scan_eq hsource')
    obtain ⟨rfl, hspan⟩ := LexError.mk.inj (Except.error.inj herror)
    have hsplit := hsource.symm.trans hsource'
    obtain rfl := Span.behind_inj hsplit hspan
    exact ⟨rfl, List.append_cancel_left hsplit, rfl⟩
  · intro e h
    obtain hfault | ⟨c, hfault⟩ := hkinds e h
    · exact .inl ⟨hfault, by rw [hfault]; rfl⟩
    · exact .inr ⟨c, hfault, by rw [hfault]; rfl⟩
  · intro digits span h
    obtain hfault | ⟨c, hfault⟩ := hkinds _ h <;> cases hfault

/-- In `x /*/` the slash that opens the comment does not close it. -/
theorem scan_eq_error_openComment :
    scan "x /*/" = .error ⟨.unterminatedComment, ⟨1, 3⟩⟩ ∧
      ∃ u v, "x /*/".toList = u ++ v ∧ Stops u v .unterminatedComment ∧
        (⟨1, 3⟩ : Span) = Span.behind u := by
  have hstuck : Stuck ['/', '*', '/'] .unterminatedComment := .comment (by decide)
  have hcut : Cut "x /*/".toList _ ([' '] ++ ['/', '*', '/']) :=
    .piece (p := ⟨[], ['x'], _⟩) rfl (.name (by decide) rfl (by decide)) .stop
  have hscan : scan "x /*/" = .error ⟨.unterminatedComment, ⟨1, 3⟩⟩ :=
    hcut.scanFrom_eq_error rfl hstuck Span.start
  exact ⟨hscan, ((scan_eq_error_iff "x /*/").1 _).1 hscan⟩

end Token
end FieldScript
