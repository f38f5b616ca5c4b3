/-
# What the parser accepts is derivable

A parser is *sound* for a symbol of the grammar if the tokens that it reads
derive what it returns.  Sequencing keeps this: the tokens of two parsers in a
row are appended (`Sound.bind`).  A look at the next token is worth something
only until the token is read, which is why `SoundAt` says the same of a parser
that has seen the next token.

The bounds on loops and nesting do no harm here.  A loop that stops early has
read less, and what it has read is derived all the same.
-/

import FieldScript.Proofs.Computations
import FieldScript.Proofs.Grammar

namespace FieldScript

namespace Cursor

/-- The tokens that are still to be read. -/
def tokens (c : Cursor) : List Token := c.rest.map (·.token)

theorem peek_eq_head? (c : Cursor) : c.peek = c.tokens.head? := List.head?_map.symm

theorem peekSecond_eq_head? (c : Cursor) : c.peekSecond = c.tokens.tail.head? := by
  rw [tokens, ← List.map_tail]
  exact List.head?_map.symm

theorem tokens_advance (c : Cursor) : c.advance.tokens = c.tokens.tail := by
  obtain ⟨rest, last⟩ := c
  cases rest <;> rfl

theorem length_rest (c : Cursor) : c.rest.length = c.tokens.length := (List.length_map _).symm

theorem tokens_eq_cons {c : Cursor} {t : Token} (h : c.peek = some t) :
    c.tokens = t :: c.advance.tokens := by
  obtain ⟨us, hus⟩ := List.head?_eq_some_iff.1 (c.peek_eq_head?.symm.trans h)
  rw [tokens_advance, hus, List.tail_cons]

end Cursor

namespace Parser

open Grammar

section Rules

variable {α β : Type} {p : Parser α} {f : α → Parser β} {D : List Token → α → Prop}
  {E : List Token → β → Prop} {t : Token} {next : Option Token}

/-- The tokens that a parser reads derive what it returns. -/
def Sound (p : Parser α) (D : List Token → α → Prop) : Prop :=
  ∀ c a c', p c = .ok a c' → ∃ ts, c.tokens = ts ++ c'.tokens ∧ D ts a

/-- The same if the next token is known. -/
def SoundAt (next : Option Token) (p : Parser α) (D : List Token → α → Prop) : Prop :=
  ∀ c a c', c.peek = next → p c = .ok a c' → ∃ ts, c.tokens = ts ++ c'.tokens ∧ D ts a

theorem Sound.at (h : Sound p D) : SoundAt next p D := fun c a c' _ => h c a c'

theorem Sound.mono {D' : List Token → α → Prop} (h : Sound p D) (hle : ∀ ts a, D ts a → D' ts a) :
    Sound p D' := by
  intro c a c' hp
  obtain ⟨ts, htokens, hts⟩ := h c a c' hp
  exact ⟨ts, htokens, hle ts a hts⟩

theorem Sound.pure {a : α} (h : D [] a) : Sound (Pure.pure a) D := by
  intro c b c' hp
  cases hp
  exact ⟨[], rfl, h⟩

/-- **Two parsers in a row.** -/
theorem Sound.bind (hp : Sound p D)
    (hf : ∀ ts a, D ts a → Sound (f a) fun us b => E (ts ++ us) b) : Sound (p >>= f) E := by
  intro c b c' h
  obtain ⟨a, d, ha, hb⟩ := bind_eq_ok_iff.1 h
  obtain ⟨ts, htokens, hts⟩ := hp c a d ha
  obtain ⟨us, htokens', hus⟩ := hf ts a hts d b c' hb
  refine ⟨ts ++ us, ?_, hus⟩
  rw [htokens, htokens', List.append_assoc]

theorem Sound.peek {f : Option Token → Parser β} (h : ∀ next, SoundAt next (f next) E) :
    Sound (Parser.peek >>= f) E :=
  fun c b c' hf => h c.peek c b c' rfl hf

theorem Sound.remaining {f : Nat → Parser β} (h : ∀ n, Sound (f n) E) :
    Sound (Parser.remaining >>= f) E :=
  fun c b c' hf => h c.rest.length c b c' hf

theorem Sound.get {f : Cursor → Parser β} (h : ∀ d, Sound (f d) E) :
    Sound (MonadState.get >>= f) E :=
  fun c b c' hf => h c c b c' hf

/-- The token that was seen is read. -/
theorem SoundAt.advance {g : Unit → Parser β} (h : Sound (g ()) fun us b => E (t :: us) b) :
    SoundAt (some t) (Parser.advance >>= g) E := by
  intro c b c' hnext hg
  obtain ⟨us, htokens, hus⟩ := h c.advance b c' hg
  exact ⟨t :: us, by rw [c.tokens_eq_cons hnext, htokens]; rfl, hus⟩

theorem sound_fail (fault : ParseFault) : Sound (fail fault) D := by
  intro c a c' h
  cases h

theorem sound_unexpected (what : Expectation) : Sound (unexpected what) D :=
  fun c a c' h => sound_fail (.expected what (c.peek.filter (· ≠ .endOfInput))) c a c' h

theorem sound_expect (t : Token) : Sound (expect t) fun ts _ => ts = [t] := by
  refine .peek fun next => ?_
  split
  · rename_i hnext
    subst hnext
    intro c a c' hnext h
    cases h
    exact ⟨[t], c.tokens_eq_cons hnext, rfl⟩
  · exact (sound_unexpected _).at

end Rules

/-! ### Expressions -/

section Expressions

variable {combine : Token → Option (Expr → Expr → Expr)} {operand inner : Parser Expr}
  {D : List Token → Expr → Prop}

theorem sound_chain (h : Sound operand D) (bound : Nat) {ts : List Token} {lhs : Expr}
    (hl : Joined combine D ts lhs) :
    Sound (chain combine operand bound lhs) fun us e => Joined combine D (ts ++ us) e := by
  induction bound generalizing ts lhs with
  | zero => exact .pure (by rwa [List.append_nil])
  | succ bound ih =>
    refine .peek fun next => ?_
    split
    · exact (Sound.pure (by rwa [List.append_nil])).at
    · rename_i node hnode
      obtain ⟨t, rfl, ht⟩ := Option.bind_eq_some_iff.1 hnode
      refine .advance (h.bind fun us rhs hr => ?_)
      refine (ih (hl.join ht hr)).mono fun vs e he => ?_
      rwa [List.append_assoc, List.cons_append] at he

theorem sound_leftAssoc (h : Sound operand D) :
    Sound (leftAssoc combine operand) (Joined combine D) :=
  h.bind fun _ _ hl => .remaining fun n => sound_chain h n (.operand hl)

theorem sound_comparison (h : Sound operand Sum) : Sound (comparison operand) Comparison := by
  refine h.bind fun ts l hl => .peek fun next => ?_
  split
  · rename_i op
    refine .advance (h.bind fun us r hr => .peek fun next => ?_)
    split
    · exact Sound.at ((sound_fail _).bind fun _ _ (h : False) => h.elim)
    · exact (Sound.pure (by rw [List.append_nil]; exact .cmp op hl hr)).at
  · exact (Sound.pure (by rw [List.append_nil]; exact .sum hl)).at

theorem negate_derives {ts : List Token} {e : Expr} (h : Unary ts e) :
    Unary (.arith .sub :: ts) e.negate := by
  cases e with
  | literal x => exact .minusLiteral h
  | _ => exact .minus h fun x hx => by cases hx

theorem sound_unary {primary : Parser Expr} (h : Sound primary Primary) (bound : Nat) :
    Sound (unary primary bound) Unary := by
  induction bound with
  | zero => exact h.mono fun _ _ => .primary
  | succ bound ih =>
    refine .peek fun next => ?_
    split
    · rename_i hnext
      subst hnext
      exact .advance (ih.bind fun ts e he => .pure (by rw [List.append_nil]; exact negate_derives he))
    · exact (h.mono fun _ _ => .primary).at

/-- The arguments are in front of the closing parenthesis, after those given. -/
theorem sound_argumentsTail (h : Sound inner Expression) (bound : Nat) (args : List Expr) :
    Sound (argumentsTail inner bound args) fun ts all =>
      ∃ us es, ts = us ++ [.rightParen] ∧ all = args.reverse ++ es ∧ Arguments us es := by
  induction bound generalizing args with
  | zero => exact sound_unexpected _
  | succ bound ih =>
    refine h.bind fun ts e he => .peek fun next => ?_
    split
    · refine .advance ((ih (e :: args)).mono ?_)
      rintro vs all ⟨us, es, rfl, rfl, hes⟩
      exact ⟨ts ++ .comma :: us, e :: es, by simp, by simp, .more he hes⟩
    · exact .advance (.pure ⟨ts, [e], by simp, by simp, .one he⟩)
    · exact (sound_unexpected _).at

theorem sound_arguments (h : Sound inner Expression) :
    Sound (arguments inner) fun ts args =>
      ∀ name, Primary (.ident name :: ts) (.call name args) := by
  refine (sound_expect .leftParen).bind ?_
  rintro _ _ rfl
  refine .peek fun next => ?_
  split
  · rename_i hnext
    subst hnext
    exact .advance (.pure fun name => .callNone name)
  · refine Sound.at (.remaining fun n => (sound_argumentsTail h (n + 1) []).mono ?_)
    rintro _ _ ⟨us, es, rfl, rfl, hes⟩ name
    exact .call name hes

theorem sound_primary (h : Sound inner Expression) : Sound (primary inner) Primary := by
  refine .peek fun next => ?_
  split
  · rename_i x
    exact .advance (.pure (.number x))
  · rename_i name
    refine .advance (.peek fun next => ?_)
    split
    · exact Sound.at ((sound_arguments h).bind fun ts args hargs =>
        .pure (by rw [List.append_nil]; exact hargs name))
    · exact (Sound.pure (.ident name)).at
  · refine .advance (h.bind fun ts e he => (sound_expect .rightParen).bind ?_)
    rintro _ _ rfl
    exact .pure (by rw [List.append_nil]; exact .paren he)
  · exact (sound_unexpected _).at

theorem sound_levels (h : Sound inner Expression) : Sound (levels inner) Expression := by
  have hunary : Sound (do unary (primary inner) (← remaining)) Unary :=
    .remaining fun n => sound_unary (sound_primary h) n
  have hsum : Sound (leftAssoc additive (leftAssoc multiplicative
      (do unary (primary inner) (← remaining)))) Sum :=
    (sound_leftAssoc ((sound_leftAssoc hunary).mono fun _ _ => Product.of_joined)).mono
      fun _ _ => Sum.of_joined
  have hconjunction := (sound_leftAssoc (sound_comparison hsum)).mono fun _ _ => Conjunction.of_joined
  exact (sound_leftAssoc hconjunction).mono fun _ _ => Expression.of_joined

theorem sound_nested (depth : Nat) : Sound (nested depth) Expression := by
  induction depth with
  | zero => exact sound_unexpected _
  | succ depth ih => exact sound_levels ih

theorem sound_expression : Sound expression Expression :=
  .remaining fun n => sound_nested (n + 1)

end Expressions

/-! ### Statements -/

section Statements

variable {inner : Parser (Option Expr)}

/-- A statement read next stands behind those read before. -/
theorem reverse_toList_append (s : Option Expr) (done es : List Expr) :
    (s.toList ++ done).reverse ++ es = done.reverse ++ (s.toList ++ es) := by
  cases s <;> simp

/-- The statements are in front of the closing brace, after those given. -/
theorem sound_statements (h : Sound inner Statement) (bound : Nat) (done : List Expr) :
    Sound (statements inner bound done) fun ts all =>
      ∃ us es, ts = us ++ [.rightBrace] ∧ all = done.reverse ++ es ∧ Statements us es := by
  induction bound generalizing done with
  | zero => exact sound_unexpected _
  | succ bound ih =>
    refine .peek fun next => ?_
    split
    · rename_i hnext
      subst hnext
      exact .advance (.pure ⟨[], [], rfl, (List.append_nil _).symm, .nil⟩)
    · refine Sound.at (.get fun d => ?_)
      split
      · exact sound_unexpected _
      · refine h.bind fun ts s hs => (ih (s.toList ++ done)).mono ?_
        rintro vs all ⟨us, es, rfl, rfl, hes⟩
        exact ⟨ts ++ us, s.toList ++ es, (List.append_assoc ..).symm, reverse_toList_append s done es,
          .cons hs hes⟩

theorem sound_block (h : Sound inner Statement) : Sound (block inner) Block := by
  refine (sound_expect .leftBrace).bind ?_
  rintro _ _ rfl
  refine .remaining fun n => (sound_statements h (n + 1) []).bind ?_
  rintro _ _ ⟨us, es, rfl, rfl, hes⟩
  exact .pure (by rw [List.append_nil]; exact .braces hes)

theorem sound_conditional (h : Sound inner Statement) :
    SoundAt (some .ifWord) (conditional inner) fun ts e => Statement ts (some e) := by
  refine .advance ((sound_expect .leftParen).bind ?_)
  rintro _ _ rfl
  refine sound_expression.bind fun ts c hc => (sound_expect .rightParen).bind ?_
  rintro _ _ rfl
  refine .peek fun next => ?_
  split
  · refine Sound.at ((sound_block h).bind fun us b hb => .pure ?_)
    have hstatement := Statement.conditional hc hb
    simpa using hstatement
  · exact (sound_unexpected _).at

/-- An expression with its semicolon. -/
theorem sound_terminated {β : Type} {E : List Token → β → Prop} (node : Expr → β)
    (h : ∀ ts e, Expression ts e → E (ts ++ [.semicolon]) (node e)) :
    Sound (do let e ← expression; expect .semicolon; return node e) E := by
  refine sound_expression.bind fun ts e he => (sound_expect .semicolon).bind ?_
  rintro _ _ rfl
  exact .pure (by rw [List.append_nil]; exact h ts e he)

theorem get_bind_apply {α : Type} (f : Cursor → Parser α) (c : Cursor) : (get >>= f) c = f c c := rfl

theorem simpleStatement_assign {c : Cursor} {name : String} (h : c.peek = some (.ident name))
    (h' : c.peekSecond = some .assign) :
    simpleStatement c =
      (do let e ← expression; expect .semicolon; return Expr.assign name e : Parser Expr)
        c.advance.advance := by
  rw [simpleStatement, get_bind_apply]
  simp only [h, h']
  rfl

theorem simpleStatement_expression {c : Cursor}
    (h : ∀ name, c.peek = some (.ident name) → c.peekSecond ≠ some .assign) :
    simpleStatement c =
      (do let e ← expression; expect .semicolon; return e : Parser Expr) c := by
  rw [simpleStatement, get_bind_apply]
  refine congrFun ?_ c
  split
  · rename_i name hfirst hsecond
    exact absurd hsecond (h name hfirst)
  · rfl

theorem sound_simpleStatement : Sound simpleStatement fun ts e => Statement ts (some e) := by
  intro c e c' h
  by_cases hassign : ∃ name, c.peek = some (.ident name) ∧ c.peekSecond = some .assign
  · obtain ⟨name, hfirst, hsecond⟩ := hassign
    rw [simpleStatement_assign hfirst hsecond] at h
    have hvalue : Sound (do let e ← expression; expect .semicolon; return Expr.assign name e)
        fun ts e => Statement (.ident name :: .assign :: ts) (some e) :=
      sound_terminated _ fun ts e he => .assign name he
    obtain ⟨ts, htokens, hts⟩ := hvalue c.advance.advance e c' h
    rw [Cursor.peekSecond_eq_head?, ← Cursor.tokens_advance, ← Cursor.peek_eq_head?] at hsecond
    refine ⟨.ident name :: .assign :: ts, ?_, hts⟩
    rw [c.tokens_eq_cons hfirst, Cursor.tokens_eq_cons hsecond, htokens]
    rfl
  · have hnot : ∀ name, c.peek = some (.ident name) → c.peekSecond ≠ some .assign :=
      fun name hfirst hsecond => hassign ⟨name, hfirst, hsecond⟩
    have hvalue : Sound (do let e ← expression; expect .semicolon; return e)
        fun ts e => Statement ts (some e) :=
      sound_terminated id fun ts e he => .expression he
    exact hvalue c e c' (simpleStatement_expression hnot ▸ h)

theorem sound_statementOver (h : Sound inner Statement) : Sound (statementOver inner) Statement := by
  refine .peek fun next => ?_
  split
  · exact .advance (.pure .empty)
  · intro c s c' hnext hs
    obtain ⟨e, d, he, hd⟩ := bind_eq_ok_iff.1 hs
    cases hd
    exact sound_conditional h c e c' hnext he
  · exact Sound.at ((sound_block h).bind fun ts b hb =>
      .pure (by rw [List.append_nil]; exact .block hb))
  · exact Sound.at (sound_simpleStatement.bind fun ts e he =>
      .pure (by rw [List.append_nil]; exact he))

theorem sound_statementNested (depth : Nat) : Sound (statementNested depth) Statement := by
  induction depth with
  | zero => exact sound_unexpected _
  | succ depth ih => exact sound_statementOver ih

theorem sound_statement : Sound statement Statement :=
  .remaining fun n => sound_statementNested (n + 1)

/-- **A program that is accepted is derivable,** up to the place where no
statement can start. -/
theorem sound_programTail {bound : Nat} {done all : List Expr} {c c' : Cursor}
    (hbound : c.tokens.length ≤ bound) (h : programTail bound done c = .ok all c') :
    ∃ ts es, c.tokens = ts ++ c'.tokens ∧ all = done.reverse ++ es ∧ Statements ts es ∧
      c'.atEnd = true := by
  induction bound generalizing done c with
  | zero =>
    have hempty : c.tokens = [] := List.eq_nil_of_length_eq_zero (Nat.le_zero.1 hbound)
    cases h
    refine ⟨[], [], rfl, (List.append_nil _).symm, .nil, ?_⟩
    rw [Cursor.atEnd, Cursor.peek_eq_head?, hempty]
    rfl
  | succ bound ih =>
    change (if c.atEnd then _ else _ : Parser (List Expr)) c = _ at h
    split at h
    · rename_i hend
      cases h
      exact ⟨[], [], rfl, (List.append_nil _).symm, .nil, hend⟩
    · obtain ⟨s, d, hs, hrest⟩ := bind_eq_ok_iff.1 h
      obtain ⟨ts, htokens, hts⟩ := sound_statement c s d hs
      have hlength : d.tokens.length ≤ bound := by
        have hpos := hts.starts.length_pos
        rw [htokens, List.length_append] at hbound
        omega
      obtain ⟨us, es, htokens', rfl, hus, hend⟩ := ih hlength hrest
      refine ⟨ts ++ us, s.toList ++ es, ?_, reverse_toList_append s done es, .cons hts hus, hend⟩
      rw [htokens, htokens', List.append_assoc]

end Statements
end Parser
end FieldScript
