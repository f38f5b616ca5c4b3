/-
# A scan loses nothing

A source that is scanned is a row of gaps and tokens, with a gap at the end.
Each token is what the scanner makes of its text alone, and its place counts the
newlines before it and the characters since the last of them.

The scanner counts as it goes, character by character.  `Span.behind` says what
it counts without a run, and the two agree (`Span.after_start`).  Places grow
along a text (`Span.before_after`), so the places of the tokens are in order.
-/

import FieldScript.Proofs.Lexemes

namespace FieldScript

/-! ### Places -/

namespace Span

/-- The place behind a text: one more than its newlines, and one more than the
characters since the last of them. -/
def behind (cs : List Char) : Span :=
  ⟨1 + cs.count '\n', 1 + (cs.reverse.takeWhile (· ≠ '\n')).length⟩

/-- One place stands before another, on an earlier line or further left. -/
def Before (s t : Span) : Prop := s.line < t.line ∨ s.line = t.line ∧ s.col < t.col

instance (s t : Span) : Decidable (s.Before t) := inferInstanceAs (Decidable (_ ∨ _))

theorem advance_behind (cs : List Char) (c : Char) :
    (behind cs).advance c = behind (cs ++ [c]) := by
  obtain rfl | hc := Decidable.em (c = '\n')
  · simp [behind, advance, Nat.add_assoc]
  · have hcount : (cs ++ [c]).count '\n' = cs.count '\n' := by simp [List.count_append, hc]
    simp [behind, advance, hc, hcount, Nat.add_assoc]

theorem after_behind (cs ds : List Char) : (behind cs).after ds = behind (cs ++ ds) := by
  induction ds generalizing cs with
  | nil => rw [List.append_nil]; rfl
  | cons d ds ih =>
    change ((behind cs).advance d).after ds = _
    rw [advance_behind, ih, List.append_assoc]
    rfl

/-- **The scanner counts newlines and the characters since the last.** -/
theorem after_start (cs : List Char) : start.after cs = behind cs :=
  after_behind [] cs

theorem Before.trans {s t u : Span} (h : s.Before t) (h' : t.Before u) : s.Before u := by
  simp only [Before] at h h' ⊢
  omega

theorem before_advance (s : Span) (c : Char) : s.Before (s.advance c) := by
  unfold advance Before
  split <;> simp

/-- **Places grow along a text.** -/
theorem before_after (s : Span) {cs : List Char} (h : cs ≠ []) : s.Before (s.after cs) := by
  induction cs generalizing s with
  | nil => exact absurd rfl h
  | cons c cs ih =>
    have hstep := before_advance s c
    cases cs with
    | nil => exact hstep
    | cons d cs => exact hstep.trans (ih (s.advance c) (List.cons_ne_nil d cs))

end Span

/-! ### Pieces in place -/

namespace Token

theorem Cut.of_mem {cs left : List Char} {ps : List Piece} (h : Cut cs ps left) {p : Piece}
    (hp : p ∈ ps) : p.gap.all isGap ∧ Longest p.text [] p.token := by
  induction h with
  | stop => exact absurd hp List.not_mem_nil
  | @piece q rest left ps hgap htext _ ih =>
    obtain rfl | hp := List.mem_cons.1 hp
    · exact ⟨hgap, Longest.of_append htext⟩
    · exact ih hp

/-- A token alone is scanned as itself. -/
theorem scan_longest {text : List Char} {t : Token} (h : Longest text [] t) :
    scan (String.ofList text) =
      .ok [⟨t, Span.start⟩, ⟨.endOfInput, Span.start.after text⟩] := by
  have hscan := scanFrom_longest h Span.start
  rw [List.append_nil, scanFrom] at hscan
  rw [scan, String.toList_ofList, hscan]
  rfl

theorem map_token_located (span : Span) (ps : List Piece) :
    (located span ps).map (·.token) = ps.map (·.token) := by
  induction ps generalizing span with
  | nil => rfl
  | cons p ps ih => rw [located, List.map_cons, List.map_cons, ih]

theorem located_append_cons (span : Span) (front : List Piece) (p : Piece) (back : List Piece) :
    (located span (front ++ p :: back))[front.length]? =
      some ⟨p.token, span.after (joined front ++ p.gap)⟩ := by
  induction front generalizing span with
  | nil => rfl
  | cons q front ih =>
    rw [List.cons_append, located, List.length_cons, List.getElem?_cons_succ, ih, joined_cons,
      List.append_assoc, Span.after_append span]

/-- The pieces of a row stand at or behind where the row starts. -/
theorem exists_after_of_mem_located {span : Span} {ps : List Piece} {t : Located}
    (h : t ∈ located span ps) : ∃ cs, t.span = span.after cs := by
  induction ps generalizing span with
  | nil => exact absurd h List.not_mem_nil
  | cons p ps ih =>
    obtain rfl | h := List.mem_cons.1 h
    · exact ⟨p.gap, rfl⟩
    · obtain ⟨cs, hcs⟩ := ih h
      exact ⟨p.chars ++ cs, by rw [hcs, Span.after_append]⟩

/-- **Pieces are in order,** and a place behind them is behind each of them. -/
theorem pairwise_located {ps : List Piece} (hps : ∀ p ∈ ps, p.text ≠ []) (span : Span)
    (last : List Char) (t : Token) :
    (located span ps ++ [(⟨t, span.after (joined ps ++ last)⟩ : Located)]).Pairwise
      (·.span.Before ·.span) := by
  induction ps generalizing span with
  | nil => exact List.pairwise_singleton _ _
  | cons p ps ih =>
    obtain ⟨hp, hps⟩ := List.forall_mem_cons.1 hps
    have hafter : ∀ cs, span.after (p.chars ++ cs) = (span.after p.gap).after (p.text ++ cs) := by
      intro cs
      rw [Piece.chars, List.append_assoc, Span.after_append]
    have hlast : span.after (joined (p :: ps) ++ last) =
        (span.after p.chars).after (joined ps ++ last) := by
      rw [joined_cons, List.append_assoc, Span.after_append]
    rw [located, hlast, List.cons_append]
    refine List.pairwise_cons.2 ⟨fun b hb => ?_, ih hps _⟩
    have hb : ∃ cs, b.span = span.after (p.chars ++ cs) := by
      obtain hb | hb := List.mem_append.1 hb
      · obtain ⟨cs, hcs⟩ := exists_after_of_mem_located hb
        exact ⟨cs, by rw [hcs, Span.after_append]⟩
      · rw [List.mem_singleton.1 hb]
        exact ⟨joined ps ++ last, (Span.after_append ..).symm⟩
    obtain ⟨cs, hcs⟩ := hb
    rw [hcs, hafter]
    exact Span.before_after _ (by simp [hp])

/-- How a scanned text is put together from pieces and a last gap, and what its
tokens are. -/
structure Covers (cs : List Char) (tokens : List Located) (ps : List Piece) (last : List Char) :
    Prop where
  chars : cs = joined ps ++ last
  gap : ∀ p ∈ ps, p.gap.all isGap
  last : last.all isGap
  text_ne_nil : ∀ p ∈ ps, p.text ≠ []
  /-- The text of a token is scanned as this token. -/
  alone : ∀ p ∈ ps, ∃ stop,
    scan (String.ofList p.text) = .ok [⟨p.token, Span.start⟩, ⟨.endOfInput, stop⟩]
  map_token : tokens.map (·.token) = ps.map (·.token) ++ [.endOfInput]
  /-- A token stands behind all pieces before it and its own gap. -/
  span : ∀ front p back, ps = front ++ p :: back →
    tokens[front.length]?.map (·.span) = some (Span.behind (joined front ++ p.gap))
  stop : tokens.getLast?.map (·.span) = some (Span.behind cs)
  ordered : tokens.Pairwise (·.span.Before ·.span)

/-- **A scan covers its source.**  The source is the row of its tokens' texts
with gaps between them, each text alone gives its token, and the tokens stand
where the newlines and characters before them say. -/
theorem scan_covers {source : String} {tokens : List Located} (h : scan source = .ok tokens) :
    ∃ ps last, Covers source.toList tokens ps last := by
  obtain ⟨ps, last, hcut, hlast, rfl⟩ := cut_of_scanFrom_ok h
  have htext : ∀ p ∈ ps, p.text ≠ [] := fun p hp => (hcut.of_mem hp).2.ne_nil
  refine ⟨ps, last, hcut.eq_append, fun p hp => (hcut.of_mem hp).1, hlast, htext,
    ?_, ?_, ?_, ?_, ?_⟩
  · intro p hp
    exact ⟨_, scan_longest (hcut.of_mem hp).2⟩
  · rw [List.map_append, map_token_located]
    rfl
  · rintro front p back rfl
    have hget := located_append_cons Span.start front p back
    rw [List.getElem?_append_left (List.getElem?_eq_some_iff.1 hget).1, hget, Span.after_start]
    rfl
  · rw [List.getLast?_concat, Span.after_start]
    rfl
  · have hordered := pairwise_located htext Span.start last .endOfInput
    rwa [← hcut.eq_append] at hordered

/-- A comment that holds a newline moves what follows to the next line. -/
theorem covers_brokenComment :
    let source := "a/*\n*/ 1.5\n"
    let tokens : List Located := [⟨.ident "a", ⟨1, 1⟩⟩, ⟨.comment "", ⟨1, 2⟩⟩,
      ⟨.number (.ofDecimal false (.ofParts ['1'] ['5'])), ⟨2, 4⟩⟩, ⟨.newline, ⟨2, 7⟩⟩,
      ⟨.endOfInput, ⟨3, 1⟩⟩]
    scan source = .ok tokens ∧ ∃ ps last, Covers source.toList tokens ps last := by
  intro source tokens
  have hcut : Cut "a/*\n*/ 1.5\n".toList _ [] :=
    .piece (p := ⟨[], ['a'], _⟩) rfl (.name (by decide) rfl (by decide)) <|
    .piece (p := ⟨[], "/*\n*/".toList, _⟩) rfl (@Longest.blockComment ['\n'] _ rfl) <|
    .piece (p := ⟨[' '], "1.5".toList, _⟩) rfl
      (@Longest.number ['1'] ['5'] _ rfl rfl (by simp) rfl (by simp)) <|
    .piece (p := ⟨[], ['\n'], _⟩) rfl .newline .stop
  have hscan : scan source = .ok tokens := hcut.scanFrom_eq_ok rfl Span.start
  exact ⟨hscan, scan_covers hscan⟩

end Token
end FieldScript
