/-
# Blanks between tokens do not matter

Blanks and line breaks can be put wherever a token of a source starts or ends:
the source is still scanned, and as the same tokens apart from layout.

A token in front of the place is what it was because it looks at the character
behind it and, after digits, at one more (`Longest.insert`).  A token that ends
there meets a blank, which goes on with no token but a line comment.  That comment
takes the blanks up to the next line break, and stays a comment
(`Longest.behind`).  Behind the place nothing changes but the places of tokens.
So the scan goes through the same pieces (`Cut.yields_insert`).

The parser reads no layout and does not look at places, so it makes the same of
the tokens.
-/

import FieldScript.Proofs.LexFaults
import FieldScript.Proofs.Places

namespace FieldScript
namespace Token

/-! ### Places in a source -/

/-- Spaces, tabs, carriage returns and newlines. -/
def blanks : List Char := [' ', '\t', '\r', '\n']

/-- A token that was scanned has the characters of a text from `start` on, up to
`stop`. -/
def Occupies (cs : List Char) (t : Located) (start stop : Nat) : Prop :=
  t.span = Span.behind (cs.take start) ∧ ∃ c rest n,
    cs.drop start = c :: rest ∧ lexeme c rest = .ok (t.token, n) ∧ stop = start + n + 1

/-- The start or the end of a text, or of one of its tokens. -/
def Boundary (cs : List Char) (tokens : List Located) (k : Nat) : Prop :=
  k = 0 ∨ k = cs.length ∨
    ∃ t ∈ tokens, ∃ start stop, Occupies cs t start stop ∧ (k = start ∨ k = stop)

/-- The source with a text put in behind its first `k` characters. -/
def insertAt (source : String) (k : Nat) (w : String) : String :=
  String.ofList (source.toList.take k ++ (w.toList ++ source.toList.drop k))

/-! ### Tokens before blanks -/

theorem eq_false_of_blank {p : Char → Bool} (hp : blanks.any p = false) {c : Char}
    (h : c ∈ blanks) : p c = false :=
  Bool.eq_false_iff.2 (List.any_eq_false.1 hp c h)

theorem fractionDigits_blank {c : Char} (h : c ∈ blanks) (cs : List Char) :
    fractionDigits (c :: cs) = [] := by
  have hpoint : (c == '.') = false := @eq_false_of_blank (· == '.') (by decide) c h
  unfold fractionDigits
  split
  · rename_i hcons
    cases hcons
    cases hpoint
  · rfl

namespace Longest

variable {text rest w : List Char} {t : Token}

/-- **A token stays what it is when blanks are put in further behind it.** -/
theorem insert {x y : List Char} (h : Longest text (x ++ y) t) (hx : x ≠ [])
    (hw : ∀ c ∈ w, c ∈ blanks) : Longest text (x ++ (w ++ y)) t := by
  obtain ⟨d, x, rfl⟩ := List.exists_cons_of_ne_nil hx
  cases w with
  | nil => exact h
  | cons b w =>
    have hb : b ∈ blanks := hw b List.mem_cons_self
    have hdigit : b.isDigit = false := eq_false_of_blank (by decide) hb
    cases h with
    | newline => exact .newline
    | lineComment hbody hrest => exact .lineComment hbody hrest
    | blockComment hbody => exact .blockComment hbody
    | number hwhole hfraction hsome hrest hpoint =>
      refine .number hwhole hfraction hsome hrest fun hnil => ?_
      exact fractionDigits_append_stuck (fractionDigits_of_append (hpoint hnil)) hdigit
        (fractionDigits_blank hb _)
    | name hc hcs hrest => exact .name hc hcs hrest
    | operator hline hblock h => exact .operator hline hblock h
    | pair h => exact .pair h

/-- **Blanks right behind a token** are no part of it, unless it is a line comment,
which takes those up to the next line break. -/
theorem behind (h : Longest text rest t) (hw : ∀ c ∈ w, c ∈ blanks) :
    ∃ taken left t', w = taken ++ left ∧ Longest (text ++ taken) (left ++ rest) t' ∧
      (t' = t ∨ t.isLayout = true ∧ t'.isLayout = true) := by
  cases w with
  | nil => exact ⟨[], [], t, rfl, by rwa [List.append_nil], .inl rfl⟩
  | cons b w =>
    have hb : b ∈ blanks := hw b List.mem_cons_self
    have hsame (h : Longest text (b :: w ++ rest) t) :
        ∃ taken left t', b :: w = taken ++ left ∧ Longest (text ++ taken) (left ++ rest) t' ∧
          (t' = t ∨ t.isLayout = true ∧ t'.isLayout = true) :=
      ⟨[], b :: w, t, rfl, by rwa [List.append_nil], .inl rfl⟩
    cases h with
    | newline => exact hsame .newline
    | @lineComment body rest hbody hrest =>
      refine ⟨(b :: w).takeWhile (· ≠ '\n'), (b :: w).dropWhile (· ≠ '\n'), _,
        List.takeWhile_append_dropWhile.symm, .lineComment ?_ ?_, .inr ⟨rfl, rfl⟩⟩
      · exact (List.all_append ..).trans (by rw [hbody, List.all_takeWhile]; rfl)
      · have hhead := head?_dropWhile_any (· ≠ '\n') (b :: w)
        cases hleft : (b :: w).dropWhile (· ≠ '\n') with
        | nil => exact hrest
        | cons d left =>
          rw [hleft] at hhead
          exact hhead
    | blockComment hbody => exact hsame (.blockComment hbody)
    | number hwhole hfraction hsome hrest hpoint =>
      have hdigit : b.isDigit = false := eq_false_of_blank (by decide) hb
      exact hsame (.number hwhole hfraction hsome hdigit fun _ => fractionDigits_blank hb _)
    | name hc hcs hrest =>
      have hname : isNameChar b = false := eq_false_of_blank (by decide) hb
      exact hsame (.name hc hcs hname)
    | @operator c rest t hline hblock h =>
      have hne {d : Char} (hd : blanks.any (· == d) = false) : some b ≠ some d := by
        rintro ⟨⟩
        have hself : (b == b) = false := eq_false_of_blank hd hb
        simp at hself
      exact hsame (.operator (fun h => hne (by decide) h.2) (fun h => hne (by decide) h.2)
        (operator?_of_none (operator?_none h) (hne (by decide))))
    | pair h => exact hsame (.pair h)

end Longest

/-! ### Scans apart from layout -/

/-- The tokens that the parser reads. -/
def significant (ts : List Token) : List Token := ts.filter fun t => !t.isLayout

theorem significant_append (ts us : List Token) :
    significant (ts ++ us) = significant ts ++ significant us :=
  List.filter_append ts us

theorem significant_cons (t : Token) (ts : List Token) :
    significant (t :: ts) = significant [t] ++ significant ts :=
  significant_append [t] ts

/-- A text is scanned as tokens, apart from layout, wherever it starts. -/
def Yields (cs : List Char) (us : List Token) : Prop := ∃ ts, Scans cs ts ∧ significant ts = us

namespace Yields

variable {cs text rest w : List Char} {t t' : Token} {us : List Token}

theorem gap {g : List Char} (hg : g.all isGap) (h : Yields cs us) : Yields (g ++ cs) us := by
  obtain ⟨ts, hscans, hts⟩ := h
  refine ⟨ts, fun span => ?_, hts⟩
  rw [scanFrom_gap hg]
  exact hscans _

theorem longest (htext : Longest text rest t) (h : Yields rest us) :
    Yields (text ++ rest) (significant [t] ++ us) := by
  obtain ⟨ts, hscans, rfl⟩ := h
  obtain ⟨c, cs, rfl, hgap, hlexeme⟩ := htext.lexeme_eq
  exact ⟨t :: ts, hscans.lexeme hgap hlexeme, significant_cons t ts⟩

/-- Blanks in front of a text are gaps and line breaks. -/
theorem blanks (hw : ∀ c ∈ w, c ∈ Token.blanks) (h : Yields cs us) : Yields (w ++ cs) us := by
  induction w with
  | nil => exact h
  | cons b w ih =>
    rw [List.forall_mem_cons] at hw
    have hrest := ih hw.2
    by_cases hb : isGap b = true
    · exact gap (g := [b]) (by rw [List.all_cons, hb]; rfl) hrest
    · have hnewline : b = '\n' := by
        have hmem := hw.1
        simp only [Token.blanks, List.mem_cons, List.not_mem_nil, or_false] at hmem
        simp only [isGap, Bool.or_eq_true, decide_eq_true_eq, not_or] at hb
        tauto
      rw [hnewline]
      exact longest .newline hrest

/-- Blanks right behind a token change nothing that the parser reads. -/
theorem behind (htext : Longest text rest t) (hw : ∀ c ∈ w, c ∈ Token.blanks)
    (h : Yields rest us) : Yields (text ++ (w ++ rest)) (significant [t] ++ us) := by
  obtain ⟨taken, left, t', rfl, htaken, hkind⟩ := htext.behind hw
  have hleft := blanks (fun c hc => hw c (List.mem_append_right taken hc)) h
  have hsame : significant [t'] = significant [t] := by
    obtain rfl | ⟨ht, ht'⟩ := hkind
    · rfl
    · simp [significant, ht, ht']
  rw [List.append_assoc, ← List.append_assoc text, ← hsame]
  exact longest htaken hleft

end Yields

/-! ### Pieces around a place -/

namespace Cut

variable {cs left : List Char} {ps front back : List Piece} {us : List Token}

/-- A cut goes through the first pieces and then through the others. -/
theorem split (h : Cut cs (front ++ back) left) :
    Cut cs front (joined back ++ left) ∧ Cut (joined back ++ left) back left := by
  induction front generalizing cs with
  | nil =>
    rw [List.nil_append] at h
    rw [← h.eq_append]
    exact ⟨.stop, h⟩
  | cons p front ih =>
    cases h with
    | piece hgap htext hrest =>
      obtain ⟨hfront, hback⟩ := ih hrest
      exact ⟨.piece hgap htext hfront, hback⟩

theorem head {p : Piece} (h : Cut cs (p :: ps) left) :
    p.gap.all isGap ∧ Longest p.text (joined ps ++ left) p.token := by
  cases h with
  | piece hgap htext hrest => exact ⟨hgap, hrest.eq_append ▸ htext⟩

theorem yields (h : Cut cs ps left) (hleft : Yields left us) :
    Yields cs (significant (ps.map (·.token)) ++ us) := by
  induction h with
  | stop => exact hleft
  | @piece p rest left ps hgap htext _ ih =>
    rw [List.map_cons, significant_cons, Piece.chars, List.append_assoc, List.append_assoc]
    exact (Yields.longest htext (ih hleft)).gap hgap

/-- **Blanks can be put into a gap.** -/
theorem yields_insert {g v w : List Char} (h : Cut cs ps (g ++ v)) (hg : g.all isGap)
    (hw : ∀ c ∈ w, c ∈ blanks) (hv : Yields v us) :
    Yields (joined ps ++ g ++ (w ++ v)) (significant (ps.map (·.token)) ++ us) := by
  generalize hall : g ++ v = all at h
  induction h with
  | stop => exact (hv.blanks hw).gap hg
  | @piece p rest all ps hgap htext hrest ih =>
    have htail := ih hall
    rw [hrest.eq_append, ← hall, ← List.append_assoc] at htext
    rw [joined_cons, Piece.chars, List.map_cons, significant_cons, List.append_assoc p.gap,
      List.append_assoc p.gap, List.append_assoc p.gap, List.append_assoc p.text,
      List.append_assoc p.text, List.append_assoc (significant [p.token])]
    refine Yields.gap hgap ?_
    by_cases hnil : joined ps ++ g = []
    · -- Nothing stands between this token and the blanks, so it is the last one.
      obtain ⟨hjoined, rfl⟩ := List.append_eq_nil_iff.1 hnil
      cases ps with
      | nil => exact (Yields.behind (htext : Longest p.text v p.token) hw hv :)
      | cons q ps =>
        have hne := (hrest.of_mem List.mem_cons_self).2.ne_nil
        simp [joined_cons, Piece.chars, hne] at hjoined
    · exact .longest (htext.insert hnil hw) htail

end Cut

/-- The tokens of a row of pieces stand behind the pieces before them. -/
theorem exists_of_mem_located {span : Span} {ps : List Piece} {t : Located}
    (h : t ∈ located span ps) :
    ∃ front p back, ps = front ++ p :: back ∧
      t = ⟨p.token, span.after (joined front ++ p.gap)⟩ := by
  induction ps generalizing span with
  | nil => exact absurd h List.not_mem_nil
  | cons q ps ih =>
    obtain rfl | h := List.mem_cons.1 h
    · exact ⟨[], q, ps, rfl, rfl⟩
    · obtain ⟨front, p, back, rfl, rfl⟩ := ih h
      refine ⟨q :: front, p, back, rfl, ?_⟩
      rw [joined_cons, List.append_assoc, Span.after_append span]

/-- A text is scanned in front of a place and behind it, with nothing but a gap
between the last token in front and the place. -/
structure Seam (cs : List Char) (us : List Token) (front : List Piece) (g v : List Char) : Prop where
  cut : Cut cs front (g ++ v)
  gap : g.all isGap
  yields : ∃ us', Yields v us' ∧ us = significant (front.map (·.token)) ++ us'

section Boundaries

variable {cs last : List Char} {front back ps : List Piece} {p : Piece}

theorem yields_endOfInput (hlast : last.all isGap) : Yields last [.endOfInput] := by
  have hnil : Yields [] [.endOfInput] := ⟨_, .nil, rfl⟩
  have hgap := hnil.gap hlast
  rwa [List.append_nil] at hgap

/-- There is a seam on both sides of a piece. -/
theorem Cut.seams (h : Cut cs (front ++ p :: back) last) (hlast : last.all isGap) :
    let us := significant ((front ++ p :: back).map (·.token)) ++ [.endOfInput]
    Seam cs us front p.gap (p.text ++ (joined back ++ last)) ∧
      Seam cs us (front ++ [p]) [] (joined back ++ last) := by
  intro us
  obtain ⟨hfront, hpiece⟩ := h.split
  obtain ⟨hgap, htext⟩ := hpiece.head
  rw [List.append_cons] at h
  obtain ⟨hbefore, hback⟩ := h.split
  have hyields := hback.yields (yields_endOfInput hlast)
  have hus : us = significant (front.map (·.token)) ++
      (significant [p.token] ++ (significant (back.map (·.token)) ++ [.endOfInput])) := by
    rw [← List.append_assoc (significant [p.token]), ← significant_cons, ← List.append_assoc,
      ← significant_append, ← List.map_cons, ← List.map_append]
  refine ⟨⟨?_, hgap, _, .longest htext hyields, hus⟩, ⟨hbefore, rfl, _, hyields, ?_⟩⟩
  · rwa [joined_cons, Piece.chars, List.append_assoc, List.append_assoc] at hfront
  · rw [hus, List.map_append, significant_append, List.append_assoc]
    rfl

/-- Where the token of a piece stands. -/
theorem Cut.occupies {start stop : Nat} (h : Cut cs (front ++ p :: back) last)
    (ht : Occupies cs ⟨p.token, Span.start.after (joined front ++ p.gap)⟩ start stop) :
    start = (joined front ++ p.gap).length ∧ stop = (joined (front ++ [p])).length := by
  obtain ⟨hspan, c, rest, n, hdrop, hlexeme, rfl⟩ := ht
  obtain ⟨hfront, hpiece⟩ := h.split
  obtain ⟨hgap, htext⟩ := hpiece.head
  have hcs : cs = cs.take start ++ c :: rest := by rw [← hdrop, List.take_append_drop]
  have hpieces : cs = joined front ++ p.gap ++ (p.text ++ (joined back ++ last)) := by
    rw [hfront.eq_append, joined_cons, Piece.chars]
    simp only [List.append_assoc]
  -- The place of the token leaves one front of the text only.
  rw [Span.after_start] at hspan
  have hsplit := hpieces.symm.trans hcs
  have hplace := Span.behind_inj hsplit hspan
  have hstart : start = (joined front ++ p.gap).length := by
    have hlength := congrArg List.length hcs
    rw [List.length_append, List.length_take, List.length_cons] at hlength
    rw [hplace, List.length_take]
    omega
  obtain ⟨d, ds, hd, -, hds⟩ := htext.lexeme_eq
  rw [hplace, hd] at hsplit
  obtain ⟨rfl, rfl⟩ := List.cons.inj (List.append_cancel_left hsplit)
  cases hds.symm.trans hlexeme
  refine ⟨hstart, ?_⟩
  rw [joined_concat, Piece.chars, ← List.append_assoc, List.length_append, ← hstart, hd]
  rfl

/-- **A boundary is a seam.** -/
theorem exists_seam {k : Nat} (hcut : Cut cs ps last) (hlast : last.all isGap)
    (hk : Boundary cs (located Span.start ps ++ [⟨.endOfInput, Span.start.after cs⟩]) k) :
    ∃ front g v, Seam cs (significant (ps.map (·.token)) ++ [.endOfInput]) front g v ∧
      k = (joined front ++ g).length := by
  obtain rfl | rfl | ⟨t, ht, start, stop, hoccupies, hk⟩ := hk
  · exact ⟨[], [], cs, ⟨.stop, rfl, _, hcut.yields (yields_endOfInput hlast), rfl⟩, rfl⟩
  · refine ⟨ps, last, [], ⟨?_, hlast, _, @yields_endOfInput [] rfl, rfl⟩,
      congrArg List.length hcut.eq_append⟩
    rwa [List.append_nil]
  obtain ht | ht := List.mem_append.1 ht
  · obtain ⟨front, p, back, rfl, rfl⟩ := exists_of_mem_located ht
    obtain ⟨hbefore, hbehind⟩ := hcut.seams hlast
    obtain ⟨rfl, rfl⟩ := hcut.occupies hoccupies
    obtain rfl | rfl := hk
    · exact ⟨front, p.gap, _, hbefore, rfl⟩
    · exact ⟨front ++ [p], [], _, hbehind, by rw [List.append_nil]⟩
  · -- The end of the input has no characters.
    obtain ⟨hspan, c, rest, n, hdrop, -⟩ := hoccupies
    have hcs : cs ++ [] = cs.take start ++ c :: rest := by
      rw [← hdrop, List.take_append_drop, List.append_nil]
    rw [List.mem_singleton.1 ht, Span.after_start] at hspan
    rw [← Span.behind_inj hcs hspan] at hcs
    simp at hcs

end Boundaries

theorem Seam.yields_insert {cs g v : List Char} {us : List Token} {front : List Piece}
    (h : Seam cs us front g v) {w : List Char} (hw : ∀ c ∈ w, c ∈ blanks) :
    Yields (joined front ++ g ++ (w ++ v)) us := by
  obtain ⟨us', hv, rfl⟩ := h.yields
  exact h.cut.yields_insert h.gap hw hv

theorem map_withoutLayout (tokens : List Located) :
    (withoutLayout tokens).map (·.token) = significant (tokens.map (·.token)) := by
  rw [significant, List.filter_map]
  rfl

/-- Blanks at a boundary leave what the parser reads. -/
theorem exists_scan_insertAt {source : String} {tokens : List Located}
    (h : scan source = .ok tokens) {k : Nat} (hk : Boundary source.toList tokens k) {w : String}
    (hw : ∀ c ∈ w.toList, c ∈ blanks) :
    ∃ tokens', scan (insertAt source k w) = .ok tokens' ∧
      (withoutLayout tokens').map (·.token) = (withoutLayout tokens).map (·.token) := by
  obtain ⟨ps, last, hcut, hlast, rfl⟩ := cut_of_scanFrom_ok h
  obtain ⟨front, g, v, hseam, rfl⟩ := exists_seam hcut hlast hk
  have hchars : source.toList = joined front ++ g ++ v := by
    rw [hseam.cut.eq_append, List.append_assoc]
  obtain ⟨ts, hscans, hts⟩ := hseam.yields_insert hw
  obtain ⟨tokens', hscan, rfl⟩ := hscans Span.start
  refine ⟨tokens', ?_, ?_⟩
  · rw [scan, insertAt, String.toList_ofList, hchars, List.take_left, List.drop_left]
    exact hscan
  · rw [map_withoutLayout, hts, map_withoutLayout, List.map_append, map_token_located,
      significant_append]
    rfl

end Token

/-! ### What the parser makes of it -/

/-- Two sources are the same program, or both are tokens that are no program, for
one fault that may lie at two places. -/
def SameOutcome (r r' : Except SourceError Expr) : Prop :=
  (∃ e, r = .ok e ∧ r' = .ok e) ∨
    ∃ error error', r = .error (.parse error) ∧ r' = .error (.parse error') ∧
      error'.fault = error.fault

namespace Parser

/-- What a run of the parser says about the source. -/
def outcome : EStateM.Result ParseError Cursor Expr → Except SourceError Expr
  | .ok e _ => .ok e
  | .error e _ => .error (.parse e)

theorem Matches.sameOutcome {r r' : EStateM.Result ParseError Cursor Expr} (h : Matches r r') :
    SameOutcome (outcome r) (outcome r') := by
  cases r with
  | ok e c =>
    cases r' with
    | ok e' c' => exact .inl ⟨e, rfl, congrArg Except.ok h.1.symm⟩
    | error error' c' => exact h.elim
  | error error c =>
    cases r' with
    | ok e' c' => exact h.elim
    | error error' c' => exact .inr ⟨error, error', rfl, rfl, h.symm⟩

end Parser

theorem Expr.ofSource_eq_outcome {source : String} {tokens : List Located}
    (h : Token.scan source = .ok tokens) :
    ofSource source = Parser.outcome (Parser.program (Cursor.ofTokens tokens)) := by
  rw [ofSource, h]
  dsimp only
  cases Parser.program (Cursor.ofTokens tokens) <;> rfl

namespace Token

/-- **Layout does not matter.**  Blanks put in where a token of a source starts or ends,
or at its start or end, leave a source that is scanned, as the same tokens apart from
layout, and parsed as the same program or with the same fault. -/
theorem scan_insertAt {source : String} {tokens : List Located} (h : scan source = .ok tokens)
    {k : Nat} (hk : Boundary source.toList tokens k) {w : String}
    (hw : ∀ c ∈ w.toList, c ∈ blanks) :
    ∃ tokens', scan (insertAt source k w) = .ok tokens' ∧
      (withoutLayout tokens').map (·.token) = (withoutLayout tokens).map (·.token) ∧
      SameOutcome (Expr.ofSource source) (Expr.ofSource (insertAt source k w)) := by
  obtain ⟨tokens', hscan, hsame⟩ := exists_scan_insertAt h hk hw
  refine ⟨tokens', hscan, hsame, ?_⟩
  rw [Expr.ofSource_eq_outcome h, Expr.ofSource_eq_outcome hscan]
  have hmatches := Parser.Placeless.program (Cursor.ofTokens tokens) (Cursor.ofTokens tokens')
    hsame.symm
  exact hmatches.sameOutcome

/-- Blanks at the end of a comment go into it up to the line break. -/
theorem scan_insertAt_comment :
    let source := "x=y//z\n;"
    let tokens : List Located := [⟨.ident "x", ⟨1, 1⟩⟩, ⟨.assign, ⟨1, 2⟩⟩, ⟨.ident "y", ⟨1, 3⟩⟩,
      ⟨.comment "z", ⟨1, 4⟩⟩, ⟨.newline, ⟨1, 7⟩⟩, ⟨.semicolon, ⟨2, 1⟩⟩, ⟨.endOfInput, ⟨2, 2⟩⟩]
    scan source = .ok tokens ∧ Boundary source.toList tokens 6 ∧
      insertAt source 6 " \n\t" = "x=y//z \n\t\n;" ∧
      ∃ tokens', scan "x=y//z \n\t\n;" = .ok tokens' ∧
        (withoutLayout tokens').map (·.token) =
          [.ident "x", .assign, .ident "y", .semicolon, .endOfInput] ∧
        SameOutcome (Expr.ofSource source) (Expr.ofSource "x=y//z \n\t\n;") := by
  intro source tokens
  have hcut : Cut "x=y//z\n;".toList _ [] :=
    .piece (p := ⟨[], ['x'], _⟩) rfl (.name (by decide) rfl (by decide)) <|
    .piece (p := ⟨[], ['='], _⟩) rfl (.operator (by decide) (by decide) rfl) <|
    .piece (p := ⟨[], ['y'], _⟩) rfl (.name (by decide) rfl (by decide)) <|
    .piece (p := ⟨[], "//z".toList, _⟩) rfl (@Longest.lineComment ['z'] _ rfl rfl) <|
    .piece (p := ⟨[], ['\n'], _⟩) rfl .newline <|
    .piece (p := ⟨[], [';'], _⟩) rfl (.operator (by decide) (by decide) rfl) .stop
  have hscan : scan source = .ok tokens := hcut.scanFrom_eq_ok rfl Span.start
  have hcomment : Occupies source.toList ⟨.comment "z", ⟨1, 4⟩⟩ 3 6 :=
    ⟨by decide, '/', "/z\n;".toList, 2, by decide, lexeme_lineComment _, rfl⟩
  have hk : Boundary source.toList tokens 6 :=
    .inr (.inr ⟨_, by simp [tokens], 3, 6, hcomment, .inr rfl⟩)
  have hinsert : insertAt source 6 " \n\t" = "x=y//z \n\t\n;" := by decide
  have hblank : " \n\t".toList.all blanks.contains = true := by decide
  have h := scan_insertAt hscan hk (w := " \n\t") fun c hc =>
    List.contains_iff_mem.1 (List.all_eq_true.1 hblank c hc)
  rw [hinsert] at h
  exact ⟨hscan, hk, hinsert, h⟩

end Token
end FieldScript
