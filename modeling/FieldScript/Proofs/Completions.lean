/-
# Faults at the first impossible token

Where a parser fails, the tokens that it has read are the front of something
derivable (`Viable`): an operator takes an operand, a parenthesis is closed, a
block is closed.  Sequencing keeps this, if what the first parser derives can
always be completed to what the two of them derive (`Viable.bind`).

The token at which it failed ends no such front.  A text that goes on with this
token makes the parser fail in the same way, since it sees no further
(`alike_program`).  Behind a program semicolons may stand, so an accepted text
can be taken as long as is wanted.
-/

import FieldScript.Proofs.Lookahead

namespace FieldScript
namespace Parser

open Grammar

section Rules

variable {α β : Type} {p : Parser α} {f : α → Parser β} {D D' : List Token → α → Prop}
  {E : List Token → β → Prop} {t : Token} {next : Option Token}

/-- What is derived as `D` goes on to something derived as `E`. -/
def Completes (D : List Token → α → Prop) (E : List Token → β → Prop) : Prop :=
  ∀ ts a, D ts a → ∃ us b, E (ts ++ us) b

/-- A parser fails at its next token, and what it has read is the front of
something derivable. -/
def Viable (p : Parser α) (D : List Token → α → Prop) : Prop :=
  ∀ c e c', p c = .error e c' →
    e.span = c'.span ∧ ∃ us vs a, c.tokens = us ++ c'.tokens ∧ D (us ++ vs) a

/-- The same if the next token is known. -/
def ViableAt (next : Option Token) (p : Parser α) (D : List Token → α → Prop) : Prop :=
  ∀ c e c', c.peek = next → p c = .error e c' →
    e.span = c'.span ∧ ∃ us vs a, c.tokens = us ++ c'.tokens ∧ D (us ++ vs) a

/-- Nothing has to follow. -/
theorem completes_nil (h : ∀ ts a, D ts a → ∃ b, E ts b) : Completes D E := by
  intro ts a hts
  obtain ⟨b, hb⟩ := h ts a hts
  exact ⟨[], b, by rwa [List.append_nil]⟩

theorem Viable.at (h : Viable p D) : ViableAt next p D := fun c e c' _ => h c e c'

namespace Viable

theorem completes (h : Viable p D) (hext : Completes D D') : Viable p D' := by
  intro c e c' herror
  obtain ⟨hspan, us, vs, a, htokens, hvs⟩ := h c e c' herror
  obtain ⟨ws, b, hws⟩ := hext _ a hvs
  exact ⟨hspan, us, vs ++ ws, b, htokens, by rwa [← List.append_assoc]⟩

theorem mono (h : Viable p D) (himp : ∀ ts a, D ts a → D' ts a) : Viable p D' :=
  h.completes (completes_nil fun ts a hts => ⟨a, himp ts a hts⟩)

theorem pure (a : α) : Viable (Pure.pure a) D := by
  intro c e c' h
  cases h

/-- **Two parsers in a row.** -/
theorem bind (hs : Sound p D) (hp : Viable p D) (hext : Completes D E)
    (hf : ∀ ts a, D ts a → Viable (f a) fun us b => E (ts ++ us) b) : Viable (p >>= f) E := by
  intro c e c' h
  obtain herror | ⟨a, d, hok, herror⟩ := bind_eq_error_iff.1 h
  · obtain ⟨hspan, us, vs, a, htokens, hvs⟩ := hp c e c' herror
    obtain ⟨ws, b, hws⟩ := hext _ a hvs
    exact ⟨hspan, us, vs ++ ws, b, htokens, by rwa [← List.append_assoc]⟩
  · obtain ⟨ts, htokens, hts⟩ := hs c a d hok
    obtain ⟨hspan, us, vs, b, htokens', hvs⟩ := hf ts a hts d e c' herror
    refine ⟨hspan, ts ++ us, vs, b, ?_, ?_⟩
    · rw [htokens, htokens', List.append_assoc]
    · rwa [List.append_assoc]

theorem peek {f : Option Token → Parser β} (h : ∀ next, ViableAt next (f next) E) :
    Viable (Parser.peek >>= f) E :=
  fun c e c' herror => h c.peek c e c' rfl herror

theorem remaining {f : Nat → Parser β} (h : ∀ n, Viable (f n) E) :
    Viable (Parser.remaining >>= f) E :=
  fun c e c' herror => h c.rest.length c e c' herror

theorem get {f : Cursor → Parser β} (h : ∀ d, Viable (f d) E) :
    Viable (MonadState.get >>= f) E :=
  fun c e c' herror => h c c e c' herror

theorem fail (fault : ParseFault) (h : ∃ ts a, D ts a) : Viable (Parser.fail fault) D := by
  intro c e c' herror
  cases herror
  obtain ⟨ts, a, hts⟩ := h
  exact ⟨rfl, [], ts, a, rfl, hts⟩

theorem unexpected (what : Expectation) (h : ∃ ts a, D ts a) :
    Viable (Parser.unexpected what) D :=
  fun c e c' herror => fail (.expected what (c.peek.filter (· ≠ .endOfInput))) h c e c' herror

end Viable

/-- The token that was seen is read. -/
theorem ViableAt.advance {g : Unit → Parser β} (h : Viable (g ()) fun us b => E (t :: us) b) :
    ViableAt (some t) (Parser.advance >>= g) E := by
  intro c e c' hnext herror
  obtain ⟨hspan, us, vs, b, htokens, hvs⟩ := h c.advance e c' herror
  exact ⟨hspan, t :: us, vs, b, by rw [c.tokens_eq_cons hnext, htokens]; rfl, hvs⟩

theorem viable_expect (t : Token) : Viable (expect t) fun ts _ => ts = [t] := by
  refine .peek fun next => ?_
  split
  · intro c e c' _ herror
    cases herror
  · exact (Viable.unexpected _ ⟨[t], (), rfl⟩).at

end Rules

/-! ### Expressions -/

section Expressions

variable {combine : Token → Option (Expr → Expr → Expr)} {operand inner : Parser Expr}
  {D : List Token → Expr → Prop}

theorem exists_expression : ∃ ts e, Expression ts e :=
  ⟨_, _, .conjunction (.comparison (.sum (.product (.unary (.primary (.number Single.one))))))⟩

theorem viable_chain (hs : Sound operand D) (h : Viable operand D) (bound : Nat) {ts : List Token}
    {lhs : Expr} (hl : Joined combine D ts lhs) :
    Viable (chain combine operand bound lhs) fun us e => Joined combine D (ts ++ us) e := by
  induction bound generalizing ts lhs with
  | zero => exact .pure lhs
  | succ bound ih =>
    refine .peek fun next => ?_
    split
    · exact (Viable.pure lhs).at
    · rename_i node hnode
      obtain ⟨t, rfl, ht⟩ := Option.bind_eq_some_iff.1 hnode
      refine .advance (.bind hs h (completes_nil fun us rhs hr => ⟨_, hl.join ht hr⟩) ?_)
      intro us rhs hr
      refine (ih (hl.join ht hr)).mono fun vs e he => ?_
      rwa [List.append_assoc, List.cons_append] at he

theorem viable_leftAssoc (hs : Sound operand D) (h : Viable operand D) :
    Viable (leftAssoc combine operand) (Joined combine D) :=
  .bind hs h (completes_nil fun _ e he => ⟨e, .operand he⟩) fun _ _ hl =>
    .remaining fun n => viable_chain hs h n (.operand hl)

theorem viable_comparison (hs : Sound operand Sum) (h : Viable operand Sum) :
    Viable (comparison operand) Comparison := by
  refine .bind hs h (completes_nil fun _ e he => ⟨e, .sum he⟩) fun ts l hl => .peek fun next => ?_
  split
  · rename_i op
    refine .advance (.bind hs h (completes_nil fun us r hr => ⟨_, .cmp op hl hr⟩) ?_)
    intro us r hr
    refine .peek fun next => ?_
    split
    · -- A second comparison operator is not read, and one comparison stands without it.
      have hone : Viable (fail .chainedComparison : Parser Unit) fun vs _ =>
          ∃ e, Comparison (ts ++ .cmp op :: (us ++ vs)) e :=
        .fail _ ⟨[], (), _, by rw [List.append_nil]; exact .cmp op hl hr⟩
      exact (Viable.bind (sound_fail _) hone (completes_nil fun _ _ => id) fun _ _ _ => .pure _).at
    · exact (Viable.pure _).at
  · exact (Viable.pure l).at

theorem viable_unary {primary : Parser Expr} (hs : Sound primary Primary)
    (h : Viable primary Primary) (bound : Nat) : Viable (unary primary bound) Unary := by
  induction bound with
  | zero => exact h.mono fun _ _ => .primary
  | succ bound ih =>
    refine .peek fun next => ?_
    split
    · rename_i hnext
      subst hnext
      exact .advance (.bind (sound_unary hs bound) ih
        (completes_nil fun _ _ he => ⟨_, negate_derives he⟩) fun _ _ _ => .pure _)
    · exact (h.mono fun _ _ => .primary).at

/-- The arguments are in front of the closing parenthesis. -/
theorem viable_argumentsTail (hs : Sound inner Expression) (h : Viable inner Expression)
    (bound : Nat) (args : List Expr) :
    Viable (argumentsTail inner bound args) fun ts _ =>
      ∃ us es, ts = us ++ [.rightParen] ∧ Arguments us es := by
  have hclosed : ∀ ts e, Expression ts e → ∃ vs : List Token, ∃ _ : List Expr,
      ∃ us es, ts ++ vs = us ++ [.rightParen] ∧ Arguments us es :=
    fun ts e he => ⟨[.rightParen], [], ts, [e], rfl, .one he⟩
  induction bound generalizing args with
  | zero =>
    obtain ⟨ts, e, he⟩ := exists_expression
    exact .unexpected _ ⟨_, [], ts, [e], rfl, .one he⟩
  | succ bound ih =>
    refine .bind hs h hclosed fun ts e he => .peek fun next => ?_
    split
    · refine .advance ((ih (e :: args)).mono ?_)
      rintro vs - ⟨us, es, rfl, hes⟩
      exact ⟨ts ++ .comma :: us, e :: es, by simp, .more he hes⟩
    · exact .advance (.pure _)
    · exact (Viable.unexpected _ (hclosed ts e he)).at

theorem viable_arguments (hs : Sound inner Expression) (h : Viable inner Expression) :
    Viable (arguments inner) fun ts args =>
      ∀ name, Primary (.ident name :: ts) (.call name args) := by
  refine .bind (sound_expect .leftParen) (viable_expect .leftParen) ?_ ?_
  · rintro _ _ rfl
    exact ⟨[.rightParen], [], fun name => .callNone name⟩
  · rintro _ _ rfl
    refine .peek fun next => ?_
    split
    · rename_i hnext
      subst hnext
      exact .advance (.pure _)
    · refine Viable.at (.remaining fun n => (viable_argumentsTail hs h (n + 1) []).completes ?_)
      refine completes_nil ?_
      rintro _ _ ⟨us, es, rfl, hes⟩
      exact ⟨es, fun name => .call name hes⟩

theorem viable_primary (hs : Sound inner Expression) (h : Viable inner Expression) :
    Viable (primary inner) Primary := by
  refine .peek fun next => ?_
  split
  · exact .advance (.pure _)
  · rename_i name
    refine .advance (.peek fun next => ?_)
    split
    · exact Viable.at (.bind (sound_arguments hs) (viable_arguments hs h)
        (completes_nil fun _ _ hargs => ⟨_, hargs name⟩) fun _ _ _ => .pure _)
    · exact (Viable.pure _).at
  · refine .advance (.bind hs h ?_ fun ts e he => .bind (sound_expect .rightParen)
      (viable_expect .rightParen) ?_ fun _ _ _ => .pure _)
    · exact fun ts e he => ⟨[.rightParen], e, .paren he⟩
    · rintro _ _ rfl
      exact ⟨[], e, .paren he⟩
  · exact (Viable.unexpected _ ⟨_, _, .number Single.one⟩).at

/-- A binary level over operands that are sound and viable. -/
theorem level {D' : List Token → Expr → Prop} (hjoined : ∀ ts e, Joined combine D ts e → D' ts e)
    (h : Sound operand D ∧ Viable operand D) :
    Sound (leftAssoc combine operand) D' ∧ Viable (leftAssoc combine operand) D' :=
  ⟨(sound_leftAssoc h.1).mono hjoined, (viable_leftAssoc h.1 h.2).mono hjoined⟩

theorem viable_levels (hs : Sound inner Expression) (h : Viable inner Expression) :
    Viable (levels inner) Expression := by
  have hunary : Sound (do unary (primary inner) (← remaining)) Unary ∧
      Viable (do unary (primary inner) (← remaining)) Unary :=
    ⟨.remaining fun n => sound_unary (sound_primary hs) n,
      .remaining fun n => viable_unary (sound_primary hs) (viable_primary hs h) n⟩
  have hsum := level (fun _ _ => Sum.of_joined) (level (fun _ _ => Product.of_joined) hunary)
  have hcomparison := And.intro (sound_comparison hsum.1) (viable_comparison hsum.1 hsum.2)
  exact (level (fun _ _ => Expression.of_joined)
    (level (fun _ _ => Conjunction.of_joined) hcomparison)).2

theorem viable_nested (depth : Nat) : Viable (nested depth) Expression := by
  induction depth with
  | zero => exact .unexpected _ exists_expression
  | succ depth ih => exact viable_levels (sound_nested depth) ih

theorem viable_expression : Viable expression Expression :=
  .remaining fun n => viable_nested (n + 1)

end Expressions

/-! ### Statements -/

section Statements

variable {inner : Parser (Option Expr)}

/-- The statements are in front of the closing brace. -/
theorem viable_statements (hs : Sound inner Statement) (h : Viable inner Statement) (bound : Nat)
    (done : List Expr) :
    Viable (statements inner bound done) fun ts _ =>
      ∃ us es, ts = us ++ [.rightBrace] ∧ Statements us es := by
  have hclosed : ∃ ts : List Token, ∃ _ : List Expr,
      ∃ us es, ts = us ++ [.rightBrace] ∧ Statements us es :=
    ⟨_, [], [], [], rfl, .nil⟩
  induction bound generalizing done with
  | zero => exact .unexpected _ hclosed
  | succ bound ih =>
    refine .peek fun next => ?_
    split
    · rename_i hnext
      subst hnext
      exact .advance (.pure _)
    · refine Viable.at (.get fun d => ?_)
      split
      · exact .unexpected _ hclosed
      · refine .bind hs h ?_ fun ts s hts => (ih (s.toList ++ done)).mono ?_
        · intro ts s hts
          have hone := Statements.cons hts .nil
          rw [List.append_nil, List.append_nil] at hone
          exact ⟨[.rightBrace], [], ts, s.toList, rfl, hone⟩
        · rintro vs - ⟨us, es, rfl, hes⟩
          exact ⟨ts ++ us, s.toList ++ es, (List.append_assoc ..).symm, .cons hts hes⟩

theorem viable_block (hs : Sound inner Statement) (h : Viable inner Statement) :
    Viable (block inner) Block := by
  refine .bind (sound_expect .leftBrace) (viable_expect .leftBrace) ?_ ?_
  · rintro _ _ rfl
    exact ⟨[.rightBrace], _, .braces .nil⟩
  · rintro _ _ rfl
    refine .remaining fun n => .bind (sound_statements hs (n + 1) []) ?_ ?_ fun _ _ _ => .pure _
    · refine (viable_statements hs h (n + 1) []).completes (completes_nil ?_)
      rintro _ - ⟨us, es, rfl, hes⟩
      exact ⟨es, us, es, rfl, rfl, hes⟩
    · refine completes_nil ?_
      rintro _ _ ⟨us, es, rfl, rfl, hes⟩
      exact ⟨_, .braces hes⟩

theorem viable_conditional (hs : Sound inner Statement) (h : Viable inner Statement) :
    ViableAt (some .ifWord) (conditional inner) fun ts e => Statement ts (some e) := by
  have hcomplete : ∀ ts c, Expression ts c →
      ∃ e, Statement (.ifWord :: .leftParen :: ts ++ [.rightParen, .leftBrace, .rightBrace])
        (some e) :=
    fun ts c hc => ⟨_, .conditional hc (.braces .nil)⟩
  refine .advance (.bind (sound_expect .leftParen) (viable_expect .leftParen) ?_ ?_)
  · rintro _ _ rfl
    obtain ⟨ts, c, hc⟩ := exists_expression
    exact ⟨_, hcomplete ts c hc⟩
  rintro _ _ rfl
  refine .bind sound_expression viable_expression (fun ts c hc => ⟨_, hcomplete ts c hc⟩) ?_
  intro ts c hc
  refine .bind (sound_expect .rightParen) (viable_expect .rightParen) ?_ ?_
  · rintro _ _ rfl
    exact ⟨[.leftBrace, .rightBrace], hcomplete ts c hc⟩
  rintro _ _ rfl
  refine .peek fun next => ?_
  split
  · exact Viable.at (.bind (sound_block hs) (viable_block hs h)
      (completes_nil fun us b hb => ⟨_, .conditional hc hb⟩) fun _ _ _ => .pure _)
  · exact (Viable.unexpected _ ⟨[.leftBrace, .rightBrace], hcomplete ts c hc⟩).at

/-- An expression with its semicolon. -/
theorem viable_terminated {β : Type} {E : List Token → β → Prop} (node : Expr → β)
    (h : ∀ ts e, Expression ts e → E (ts ++ [.semicolon]) (node e)) :
    Viable (do let e ← expression; expect .semicolon; return node e) E := by
  refine .bind sound_expression viable_expression (fun ts e he => ⟨_, _, h ts e he⟩) ?_
  intro ts e he
  refine .bind (sound_expect .semicolon) (viable_expect .semicolon) ?_ fun _ _ _ => .pure _
  rintro _ _ rfl
  exact ⟨[], _, h ts e he⟩

theorem viable_simpleStatement : Viable simpleStatement fun ts e => Statement ts (some e) := by
  intro c e c' herror
  by_cases hassign : AtAssignment c
  · obtain ⟨name, hfirst, hsecond⟩ := hassign
    rw [simpleStatement_assign hfirst hsecond] at herror
    have hvalue : Viable (do let e ← expression; expect .semicolon; return Expr.assign name e)
        fun ts e => Statement (.ident name :: .assign :: ts) (some e) :=
      viable_terminated _ fun ts e he => .assign name he
    obtain ⟨hspan, us, vs, a, htokens, hvs⟩ := hvalue c.advance.advance e c' herror
    rw [Cursor.peekSecond_eq_head?, ← Cursor.tokens_advance, ← Cursor.peek_eq_head?] at hsecond
    refine ⟨hspan, .ident name :: .assign :: us, vs, a, ?_, hvs⟩
    rw [c.tokens_eq_cons hfirst, Cursor.tokens_eq_cons hsecond, htokens]
    rfl
  · have hvalue : Viable (do let e ← expression; expect .semicolon; return id e)
        fun ts e => Statement ts (some e) :=
      viable_terminated id fun ts e he => .expression he
    exact hvalue c e c' (simpleStatement_of_not hassign ▸ herror)

theorem viable_statementOver (hs : Sound inner Statement) (h : Viable inner Statement) :
    Viable (statementOver inner) Statement := by
  refine .peek fun next => ?_
  split
  · exact .advance (.pure none)
  · intro c e c' hnext herror
    obtain herror | ⟨a, d, -, herror⟩ := bind_eq_error_iff.1 herror
    · obtain ⟨hspan, us, vs, a, htokens, hvs⟩ := viable_conditional hs h c e c' hnext herror
      exact ⟨hspan, us, vs, some a, htokens, hvs⟩
    · cases herror
  · exact Viable.at (.bind (sound_block hs) (viable_block hs h)
      (completes_nil fun ts b hb => ⟨some b, .block hb⟩) fun _ _ _ => .pure _)
  · exact Viable.at (.bind sound_simpleStatement viable_simpleStatement
      (completes_nil fun ts e he => ⟨some e, he⟩) fun _ _ _ => .pure _)

theorem viable_statementNested (depth : Nat) : Viable (statementNested depth) Statement := by
  induction depth with
  | zero => exact .unexpected _ ⟨_, _, .empty⟩
  | succ depth ih => exact viable_statementOver (sound_statementNested depth) ih

theorem viable_statement : Viable statement Statement :=
  .remaining fun n => viable_statementNested (n + 1)

theorem viable_programTail (bound : Nat) (done : List Expr) :
    Viable (programTail bound done) fun ts _ => ∃ es, Statements ts es := by
  induction bound generalizing done with
  | zero => exact .pure _
  | succ bound ih =>
    refine .get fun d => ?_
    split
    · exact .pure _
    · refine .bind sound_statement viable_statement ?_ fun ts s hts => (ih _).mono ?_
      · intro ts s hts
        exact ⟨[], [], _, .cons hts .nil⟩
      · rintro us - ⟨es, hes⟩
        exact ⟨_, .cons hts hes⟩

/-- **Where a program fails, what was read is the front of a program.** -/
theorem viable_program : Viable program fun ts _ => ∃ p, Program ts p := by
  refine .remaining fun n => ?_
  intro c e c' herror
  obtain herror | ⟨a, d, -, herror⟩ := bind_eq_error_iff.1 herror
  · obtain ⟨hspan, us, vs, all, htokens, es, hes⟩ := viable_programTail n [] c e c' herror
    exact ⟨hspan, us, vs, .block all, htokens, _, .block hes⟩
  · cases herror

end Statements

/-! ### The first impossible token -/

section Programs

theorem statements_append {ts us : List Token} {es fs : List Expr} (h : Statements ts es)
    (h' : Statements us fs) : Statements (ts ++ us) (es ++ fs) := by
  induction hn : ts.length using Nat.strongRecOn generalizing ts es with
  | ind n ih =>
    cases h with
    | nil => exact h'
    | @cons ts vs s es hs hes =>
      have hpos := hs.starts.length_pos
      rw [List.length_append] at hn
      rw [List.append_assoc, List.append_assoc]
      exact .cons hs (ih vs.length (by omega) hes rfl)

theorem statements_semicolons (n : Nat) : Statements (List.replicate n .semicolon) [] := by
  induction n with
  | zero => exact .nil
  | succ n ih => exact .cons .empty ih

/-- What is accepted starts with statements that hold all tokens before the
first end of input. -/
theorem exists_statements {d d' : Cursor} {p : Expr} {us s : List Token}
    (h : program d = .ok p d') (hd : d.tokens = us ++ s) (hus : .endOfInput ∉ us) :
    ∃ ws es, Statements (us ++ ws) es := by
  obtain ⟨_, _, hn, h⟩ := bind_eq_ok_iff.1 h
  cases hn
  obtain ⟨_, _, htail, hp⟩ := bind_eq_ok_iff.1 h
  cases hp
  obtain ⟨ts, es, htokens, -, hes, hend⟩ :=
    sound_programTail (Nat.le_of_eq d.length_rest.symm) htail
  obtain ⟨ws, rfl, hrest⟩ | ⟨ws, rfl, -⟩ := List.append_eq_append_iff.1 (htokens.symm.trans hd)
  · cases ws with
    | nil => exact ⟨[], es, by rwa [List.append_nil, List.append_nil]⟩
    | cons u ws =>
      -- Then the end of input would be one of the tokens `us`.
      rw [Cursor.atEnd, Cursor.peek_eq_head?, hrest] at hend
      obtain rfl : u = .endOfInput := of_decide_eq_true hend
      exact absurd (List.mem_append_right ts List.mem_cons_self) hus
  · exact ⟨ws, es, hes⟩

/-- **What makes a program fail makes every program fail that starts so.** -/
theorem program_ne_ok {c c' d d' : Cursor} {e : ParseError} {p : Expr} {us r s : List Token}
    {t : Token} (herror : program c = .error e c') (hc : c.tokens = us ++ t :: r)
    (hc' : c'.tokens = t :: r) (hplain : .endOfInput ∉ us ++ [t]) (hd : d.tokens = us ++ t :: s) :
    program d ≠ .ok p d' := by
  intro hok
  have hleft : c.tokens = us ++ [t] ++ r := by rw [hc, List.append_assoc]; rfl
  have hright : d.tokens = us ++ [t] ++ s := by rw [hd, List.append_assoc]; rfl
  obtain ⟨ws, es, hes⟩ := exists_statements hok hright hplain
  -- With semicolons behind it, the accepted program is longer than the other one.
  let back := ws ++ List.replicate r.length Token.semicolon ++ [.endOfInput]
  have hδ : back.length = ws.length + 1 + r.length := by simp [back]; omega
  let d₀ : Cursor := ⟨(us ++ [t] ++ back).map (⟨·, .start⟩), none⟩
  have hd₀ : d₀.tokens = us ++ [t] ++ back := by
    rw [Cursor.tokens, List.map_map]
    exact List.map_id _
  have hes₀ := statements_append hes (statements_semicolons r.length)
  obtain ⟨d₁, hd₁⟩ := @program_of_derivation d₀ _ _ (by rw [hd₀]; simp [back]) (.block hes₀)
  have halike := (@alike_program _ _ _ c.tokens.length hδ).agrees c d₀ (us ++ [t]) [t] trivial
    trivial ⟨hleft, hd₀⟩ (Nat.le_refl _) (List.cons_ne_nil t []) (by rw [herror]; exact hc')
  rw [herror, hd₁] at halike
  exact halike.1

theorem plain_of_inStatement {t : Token} (h : inStatement t = true) :
    t.isLayout = false ∧ t ≠ .endOfInput := by
  constructor
  · cases t <;> first | rfl | cases h
  · rintro rfl
    cases h

/-- Tokens that are no layout are kept. -/
theorem rest_ofTokens_append {ts : List Located} (h : ∀ t ∈ ts, t.token.isLayout = false)
    (more : List Located) :
    (Cursor.ofTokens (ts ++ more)).rest = ts ++ Token.withoutLayout more := by
  have hts : Token.withoutLayout ts = ts := by
    refine List.filter_eq_self.2 fun t ht => ?_
    rw [h t ht]
    rfl
  change Token.withoutLayout (ts ++ more) = _
  rw [Token.withoutLayout, List.filter_append]
  exact congrArg (· ++ _) hts

theorem take_of_append_eq {front back ts last : List Located} (h : front ++ back = ts ++ last)
    (hle : front.length ≤ ts.length) : ts.take front.length = front := by
  have htake := congrArg (List.take front.length) h
  rw [List.take_left, List.take_append_of_le_length hle] at htake
  exact htake.symm

/-- A failed run leaves a token, and what stands before it goes on to a program. -/
theorem exists_front {c c' : Cursor} {e : ParseError} (herror : program c = .error e c')
    (hend : .endOfInput ∈ c.tokens) :
    ∃ front x back, c.rest = front ++ x :: back ∧ c'.rest = x :: back ∧ e.span = x.span ∧
      ∃ vs p, Program (front.map (·.token) ++ vs) p := by
  obtain ⟨hspan, us, vs, _, htokens, p, hp⟩ := viable_program c e c' herror
  have hreads := (@alike_program [] [] 0 c.tokens.length rfl).reads c trivial (Nat.le_refl _)
  rw [herror] at hreads
  obtain ⟨front, hfront⟩ := hreads
  change front ++ c'.rest = c.rest at hfront
  obtain rfl : us = front.map (·.token) := by
    rw [Cursor.tokens, ← hfront, List.map_append] at htokens
    exact (List.append_cancel_right htokens).symm
  cases hrest : c'.rest with
  | nil =>
    -- The end of input would stand in a program.
    have hmem : .endOfInput ∈ front.map (·.token) := by
      rw [hrest, List.append_nil] at hfront
      rwa [hfront]
    obtain ⟨hes⟩ := hp
    have := List.all_eq_true.1 hes.all_tokens _ (List.mem_append_left vs hmem)
    cases this
  | cons x back =>
    refine ⟨front, x, back, by rw [← hfront, hrest], rfl, ?_, vs, p, hp⟩
    rw [hspan, Cursor.span, hrest]

/-- A program's tokens are accepted wherever they stand. -/
theorem exists_program_ofTokens {ts : List Located} {p : Expr}
    (h : ∀ t ∈ ts, t.token.isLayout = false) (hp : Program (ts.map (·.token)) p) (last : Span) :
    ∃ c, program (.ofTokens (ts ++ [⟨.endOfInput, last⟩])) = .ok p c := by
  refine program_of_derivation ?_ hp
  rw [Cursor.tokens, rest_ofTokens_append h, List.map_append]
  rfl

/-- The tokens up to the one a run stops at are the front of no program. -/
theorem program_ofTokens_ne_ok {c c' : Cursor} {e : ParseError} {front back : List Located}
    {x : Located} (herror : program c = .error e c') (hc : c.rest = front ++ x :: back)
    (hc' : c'.rest = x :: back)
    (h : ∀ t ∈ front ++ [x], t.token.isLayout = false ∧ t.token ≠ .endOfInput)
    (more : List Located) (p : Expr) (d : Cursor) :
    program (.ofTokens (front ++ [x] ++ more)) ≠ .ok p d := by
  have hleft : c.tokens = front.map (·.token) ++ x.token :: back.map (·.token) := by
    rw [Cursor.tokens, hc, List.map_append]
    rfl
  have hright : (Cursor.ofTokens (front ++ [x] ++ more)).tokens = front.map (·.token) ++
      x.token :: (Token.withoutLayout more).map (·.token) := by
    rw [Cursor.tokens, rest_ofTokens_append (fun t ht => (h t ht).1) more, List.map_append,
      List.map_append, List.append_assoc]
    rfl
  refine program_ne_ok herror hleft (by rw [Cursor.tokens, hc']; rfl) (fun hmem => ?_) hright
  rw [← List.map_singleton, ← List.map_append] at hmem
  obtain ⟨t, ht, heq⟩ := List.mem_map.1 hmem
  exact (h t ht).2 heq

/-- A fault lies at the token of number `k` of a row with `stop` at its end, and
this is the first token that cannot be right. -/
structure FirstImpossible (ts : List Located) (stop : Located) (e : ParseError) (c : Cursor)
    (k : Nat) : Prop where
  le : k ≤ ts.length
  rest : c.rest = (ts ++ [stop]).drop k
  span : (ts ++ [stop])[k]?.map (·.span) = some e.span
  /-- The tokens before it go on to a program, wherever the others stand. -/
  completed : ∃ us : List Token, (∀ t ∈ us, t.isLayout = false ∧ t ≠ .endOfInput) ∧
    ∀ more : List Located, more.map (·.token) = us → ∀ last, ∃ p c',
      program (.ofTokens (ts.take k ++ more ++ [⟨.endOfInput, last⟩])) = .ok p c'
  /-- With it they do not, whatever follows. -/
  refused : k < ts.length → ∀ more p c', program (.ofTokens (ts.take (k + 1) ++ more)) ≠ .ok p c'

/-- **A fault lies at the first impossible token.**  The tokens before it are the
front of a program, and with it they are not. -/
theorem program_error_firstImpossible (ts : List Located)
    (h : ∀ t ∈ ts, t.token.isLayout = false ∧ t.token ≠ .endOfInput) (span : Span)
    {e : ParseError} {c : Cursor}
    (herror : program (.ofTokens (ts ++ [⟨.endOfInput, span⟩])) = .error e c) :
    ∃ k, FirstImpossible ts ⟨.endOfInput, span⟩ e c k := by
  have hlayout : ∀ t ∈ ts, t.token.isLayout = false := fun t ht => (h t ht).1
  have hrest : (Cursor.ofTokens (ts ++ [⟨.endOfInput, span⟩])).rest =
      ts ++ [⟨.endOfInput, span⟩] := rest_ofTokens_append hlayout _
  generalize Cursor.ofTokens (ts ++ [⟨.endOfInput, span⟩]) = start at hrest herror
  have hend : .endOfInput ∈ start.tokens := by
    rw [Cursor.tokens, hrest]
    simp
  obtain ⟨front, x, back, hstart, hc, hspan, vs, p, hp⟩ := exists_front herror hend
  have hsplit : front ++ x :: back = ts ++ [⟨.endOfInput, span⟩] := hstart.symm.trans hrest
  have hle : front.length ≤ ts.length := by
    have hlength := congrArg List.length hsplit
    simp only [List.length_append, List.length_cons, List.length_nil] at hlength
    omega
  have htake := take_of_append_eq hsplit hle
  have hplain : ∀ t ∈ vs, t.isLayout = false ∧ t ≠ .endOfInput := by
    intro t ht
    obtain ⟨hes⟩ := hp
    exact plain_of_inStatement (List.all_eq_true.1 hes.all_tokens t (List.mem_append_right _ ht))
  refine ⟨front.length, hle, ?_, ?_, ⟨vs, hplain, ?_⟩, ?_⟩
  · rw [hc, ← hsplit, List.drop_left]
  · rw [← hsplit, List.getElem?_append_right (Nat.le_refl _), Nat.sub_self, hspan]
    rfl
  · rintro more rfl last
    rw [htake]
    refine ⟨p, exists_program_ofTokens (fun t ht => ?_) (by rwa [List.map_append]) last⟩
    obtain ht | ht := List.mem_append.1 ht
    · exact hlayout t (List.mem_of_mem_take (htake.symm ▸ ht))
    · exact (hplain _ (List.mem_map_of_mem ht)).1
  · intro hlt
    have hlength : (front ++ [x]).length = front.length + 1 := List.length_append
    rw [List.append_cons] at hsplit
    have htake' := take_of_append_eq hsplit (hlength ▸ hlt)
    rw [hlength] at htake'
    rw [htake']
    exact program_ofTokens_ne_ok herror hstart hc fun t ht =>
      h t (List.mem_of_mem_take (htake'.symm ▸ ht))

/-- A second comparison is refused, whatever follows it. -/
theorem firstImpossible_chainedComparison :
    let ts : List Located := [⟨.ident "a", ⟨1, 1⟩⟩, ⟨.cmp .lt, ⟨1, 3⟩⟩, ⟨.ident "b", ⟨1, 5⟩⟩,
      ⟨.cmp .lt, ⟨1, 7⟩⟩, ⟨.ident "c", ⟨1, 9⟩⟩, ⟨.semicolon, ⟨1, 10⟩⟩]
    let c : Cursor := ⟨[⟨.cmp .lt, ⟨1, 7⟩⟩, ⟨.ident "c", ⟨1, 9⟩⟩, ⟨.semicolon, ⟨1, 10⟩⟩,
      ⟨.endOfInput, ⟨1, 11⟩⟩], some ⟨1, 5⟩⟩
    program (.ofTokens (ts ++ [⟨.endOfInput, ⟨1, 11⟩⟩])) = .error ⟨.chainedComparison, ⟨1, 7⟩⟩ c ∧
      ∃ k, FirstImpossible ts ⟨.endOfInput, ⟨1, 11⟩⟩ ⟨.chainedComparison, ⟨1, 7⟩⟩ c k := by
  intro ts c
  have herror : program (.ofTokens (ts ++ [⟨.endOfInput, ⟨1, 11⟩⟩])) =
      .error ⟨.chainedComparison, ⟨1, 7⟩⟩ c := rfl
  exact ⟨herror, program_error_firstImpossible ts (by decide) ⟨1, 11⟩ herror⟩

end Programs
end Parser
end FieldScript
