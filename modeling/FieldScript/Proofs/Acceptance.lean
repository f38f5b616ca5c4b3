/-
# The parser accepts what is derivable

The tokens of an expression are read as its tree wherever they stand, if the
token behind them cannot extend the expression (`Accepts`): behind a sum no
`+`, `-` or tighter operator may follow, and nowhere a parenthesis, which would
turn a name into a call.  The classes of such tokens grow with the level, and an
operator of one level extends no tighter level, so the rules for binary levels
are instances of one (`accepts_leftAssoc`).  There the derivation is left
recursive and the parser loops; after each step of the derivation the loop
stands behind the tokens derived so far, with their tree.

Nesting is bounded by the number of tokens.  Derivations of at most `n` tokens
are accepted with `n` levels of nesting (`Complete`), since what stands inside
parentheses or braces is shorter.

With soundness this makes the parser the grammar (`program_eq_ok_iff`), and
since a parser returns one tree, the grammar is not ambiguous.
-/

import FieldScript.Proofs.Derivations
import Mathlib.Data.List.Basic

namespace FieldScript
namespace Parser

open Grammar

/-- No token that `extend` holds of comes next. -/
def Ends (extend : Token → Bool) (rest : List Token) : Prop :=
  ∀ t, rest.head? = some t → extend t = false

/-- A parser reads tokens as a value, wherever they stand, if no token follows
that extends them. -/
def Accepts {α : Type} (extend : Token → Bool) (p : Parser α) (ts : List Token) (a : α) : Prop :=
  ∀ c rest, c.tokens = ts ++ rest → Ends extend rest → ∃ c', p c = .ok a c' ∧ c'.tokens = rest

/-- A parser reads what is derived from at most `n` tokens. -/
def Complete {α : Type} (n : Nat) (extend : Token → Bool) (p : Parser α)
    (D : List Token → α → Prop) : Prop :=
  ∀ ts a, ts.length ≤ n → D ts a → Accepts extend p ts a

section Rules

variable {α β : Type} {extend extend' : Token → Bool} {p : Parser α} {f : α → Parser β}
  {ts us : List Token} {t : Token} {a : α} {b : β}

theorem ends_cons (h : extend t = false) (rest : List Token) : Ends extend (t :: rest) := by
  intro u hu
  rwa [← Option.some.inj hu]

namespace Accepts

theorem pure (a : α) : Accepts extend (Pure.pure a) [] a :=
  fun c _ hc _ => ⟨c, rfl, hc⟩

/-- **Two parsers in a row.**  What the second one reads must not extend what the
first one has read. -/
theorem bind (hp : Accepts extend p ts a) (hf : Accepts extend' (f a) us b)
    (hfollow : ∀ rest, Ends extend' rest → Ends extend (us ++ rest)) :
    Accepts extend' (p >>= f) (ts ++ us) b := by
  intro c rest hc hrest
  rw [List.append_assoc] at hc
  obtain ⟨d, hd, hdtokens⟩ := hp c (us ++ rest) hc (hfollow rest hrest)
  obtain ⟨c', hc', hctokens⟩ := hf d rest hdtokens hrest
  exact ⟨c', bind_eq_ok_iff.2 ⟨a, d, hd, hc'⟩, hctokens⟩

/-- The second parser only finishes. -/
theorem andThen (hp : Accepts extend p ts a) (hf : Accepts extend' (f a) [] b)
    (hle : ∀ t, extend' t = false → extend t = false) : Accepts extend' (p >>= f) ts b := by
  have h := hp.bind hf fun rest hrest t ht => hle t (hrest t ht)
  rwa [List.append_nil] at h

theorem peek {f : Option Token → Parser β} (h : Accepts extend (f (some t)) (t :: us) b) :
    Accepts extend (Parser.peek >>= f) (t :: us) b := by
  intro c rest hc hrest
  have hpeek : c.peek = some t := by rw [Cursor.peek_eq_head?, hc]; rfl
  obtain ⟨c', hc', htokens⟩ := h c rest hc hrest
  exact ⟨c', bind_eq_ok_iff.2 ⟨some t, c, hpeek ▸ rfl, hc'⟩, htokens⟩

/-- The next token is known only by its kind. -/
theorem peekStarts {f : Option Token → Parser β} {first : Token → Bool} (hts : Starts first ts)
    (h : ∀ t, first t = true → Accepts extend (f (some t)) ts b) :
    Accepts extend (Parser.peek >>= f) ts b := by
  obtain ⟨t, us, rfl, ht⟩ := hts
  exact .peek (h t ht)

/-- Nothing more is read, whatever the next token is. -/
theorem peekEnd {f : Option Token → Parser β}
    (h : ∀ next, (∀ t, next = some t → extend t = false) → Accepts extend (f next) [] b) :
    Accepts extend (Parser.peek >>= f) [] b := by
  intro c rest hc hrest
  have hnext : ∀ t, c.peek = some t → extend t = false := by
    rw [Cursor.peek_eq_head?, hc]
    exact hrest
  obtain ⟨c', hc', htokens⟩ := h c.peek hnext c rest hc hrest
  exact ⟨c', bind_eq_ok_iff.2 ⟨c.peek, c, rfl, hc'⟩, htokens⟩

theorem advance {g : Unit → Parser β} (h : Accepts extend (g ()) us b) :
    Accepts extend (Parser.advance >>= g) (t :: us) b := by
  intro c rest hc hrest
  have hadvance : c.advance.tokens = us ++ rest := by rw [Cursor.tokens_advance, hc]; rfl
  obtain ⟨c', hc', htokens⟩ := h c.advance rest hadvance hrest
  exact ⟨c', bind_eq_ok_iff.2 ⟨(), c.advance, rfl, hc'⟩, htokens⟩

theorem remaining {f : Nat → Parser β} (h : ∀ n, ts.length ≤ n → Accepts extend (f n) ts b) :
    Accepts extend (Parser.remaining >>= f) ts b := by
  intro c rest hc hrest
  have hlength : ts.length ≤ c.rest.length := by
    rw [Cursor.length_rest, hc, List.length_append]
    omega
  obtain ⟨c', hc', htokens⟩ := h _ hlength c rest hc hrest
  exact ⟨c', bind_eq_ok_iff.2 ⟨c.rest.length, c, rfl, hc'⟩, htokens⟩

end Accepts

theorem accepts_expect (t : Token) : Accepts (fun _ => false) (expect t) [t] () := by
  refine .peek ?_
  rw [if_pos rfl]
  intro c rest hc _
  exact ⟨c.advance, rfl, by rw [Cursor.tokens_advance, hc]; rfl⟩

end Rules

/-! ### Expressions -/

/-- Tokens that extend a name. -/
def extendsPrimary (t : Token) : Bool := t = .leftParen

def extendsProduct (t : Token) : Bool := extendsPrimary t || (multiplicative t).isSome

def extendsSum (t : Token) : Bool := extendsProduct t || (additive t).isSome

def extendsComparison (t : Token) : Bool := extendsSum t || t.isComparison

def extendsConjunction (t : Token) : Bool := extendsComparison t || (conjunction t).isSome

def extendsExpression (t : Token) : Bool := extendsConjunction t || (disjunction t).isSome

section Expressions

variable {combine : Token → Option (Expr → Expr → Expr)} {operand inner : Parser Expr}
  {D : List Token → Expr → Prop} {extend : Token → Bool} {n : Nat}

/-- The loop stands behind the tokens derived so far, with their tree, and
returns what it returns from there. -/
theorem leftAssoc_reaches (h : Complete n extend operand D)
    (hextend : ∀ t node, combine t = some node → extend t = false) {ts : List Token} {e : Expr}
    (hjoined : Joined combine D ts e) (hlength : ts.length ≤ n) {c : Cursor} {rest : List Token}
    (hc : c.tokens = ts ++ rest) (hrest : Ends extend rest) :
    ∃ bound d, d.tokens = rest ∧ rest.length ≤ bound ∧
      ∀ x c', chain combine operand bound e d = .ok x c' → leftAssoc combine operand c = .ok x c' := by
  induction hjoined generalizing rest with
  | @operand ts e he =>
    obtain ⟨d, hd, htokens⟩ := h ts e hlength he c rest hc hrest
    have hbound : rest.length = d.rest.length := by rw [Cursor.length_rest, htokens]
    exact ⟨d.rest.length, d, htokens, Nat.le_of_eq hbound, fun x c' hchain =>
      bind_eq_ok_iff.2 ⟨e, d, hd, hchain⟩⟩
  | @join ts us t node l r hl ht hr ih =>
    rw [List.length_append, List.length_cons] at hlength
    rw [List.append_assoc] at hc
    obtain ⟨bound, d, htokens, hbound, hreach⟩ := ih (by omega) hc (ends_cons (hextend t node ht) _)
    -- The loop reads the operator and its right operand in one round.
    obtain ⟨bound, rfl⟩ : ∃ k, bound = k + 1 := by
      rw [List.cons_append, List.length_cons] at hbound
      exact Nat.exists_eq_add_one_of_ne_zero (by omega)
    have hadvance : d.advance.tokens = us ++ rest := by rw [Cursor.tokens_advance, htokens]; rfl
    obtain ⟨d', hd', htokens'⟩ := h us r (by omega) hr d.advance rest hadvance hrest
    refine ⟨bound, d', htokens', ?_, fun x c' hchain => hreach x c' ?_⟩
    · rw [List.cons_append, List.length_cons, List.length_append] at hbound
      omega
    · have hnext : d.peek = some t := by rw [Cursor.peek_eq_head?, htokens]; rfl
      rw [chain, bind_eq_ok_iff]
      refine ⟨some t, d, hnext ▸ rfl, ?_⟩
      rw [Option.bind_some, ht]
      exact bind_eq_ok_iff.2 ⟨(), d.advance, rfl, bind_eq_ok_iff.2 ⟨r, d', hd', hchain⟩⟩

/-- **A binary level is accepted.** -/
theorem accepts_leftAssoc (h : Complete n extend operand D)
    (hextend : ∀ t node, combine t = some node → extend t = false) :
    Complete n (fun t => extend t || (combine t).isSome) (leftAssoc combine operand)
      (Joined combine D) := by
  intro ts e hlength hjoined c rest hc hrest
  have hrest' : Ends extend rest := fun t ht => (Bool.or_eq_false_iff.1 (hrest t ht)).1
  obtain ⟨bound, d, htokens, -, hreach⟩ := leftAssoc_reaches h hextend hjoined hlength hc hrest'
  refine ⟨d, hreach e d ?_, htokens⟩
  cases bound with
  | zero => rfl
  | succ bound =>
    have hnone : d.peek.bind combine = none := by
      rw [Cursor.peek_eq_head?, htokens]
      cases hhead : rest.head? with
      | none => rfl
      | some t =>
        exact Option.not_isSome_iff_eq_none.1 (by simp [(Bool.or_eq_false_iff.1 (hrest t hhead)).2])
    rw [chain, bind_eq_ok_iff]
    refine ⟨d.peek, d, rfl, ?_⟩
    rw [hnone]
    rfl

theorem accepts_comparison (h : Complete n extendsSum operand Sum) :
    Complete n extendsComparison (comparison operand) Comparison := by
  have hle : ∀ t, extendsComparison t = false → extendsSum t = false :=
    fun t ht => (Bool.or_eq_false_iff.1 ht).1
  have hnext : ∀ {next : Option Token}, (∀ t, next = some t → extendsComparison t = false) →
      next.any Token.isComparison = false := by
    intro next hnext
    cases next with
    | none => rfl
    | some t => exact (Bool.or_eq_false_iff.1 (hnext t rfl)).2
  intro ts e hlength he
  cases he with
  | sum he =>
    refine (h ts e hlength he).andThen (.peekEnd fun next hend => ?_) hle
    split
    · exact absurd (hnext hend) (by simp [Token.isComparison])
    · exact .pure e
  | @cmp ts us l r op hl hr =>
    rw [List.length_append, List.length_cons] at hlength
    refine (h ts l (by omega) hl).bind (.peek (.advance ?_)) fun rest _ => ends_cons rfl _
    refine (h us r (by omega) hr).andThen (.peekEnd fun next hend => ?_) hle
    rw [if_neg (by simp [hnext hend])]
    exact .pure _

theorem negate_of_ne_literal {e : Expr} (h : ∀ x, e ≠ .literal x) :
    e.negate = .arith .mul (.literal Single.one.neg) e := by
  cases e with
  | literal x => exact absurd rfl (h x)
  | _ => rfl

theorem accepts_unary {primary : Parser Expr} (h : Complete n extendsPrimary primary Primary)
    (bound : Nat) {ts : List Token} {e : Expr} (hbound : ts.length ≤ bound) (hlength : ts.length ≤ n)
    (he : Unary ts e) : Accepts extendsPrimary (unary primary bound) ts e := by
  induction bound generalizing ts e with
  | zero => exact absurd he.starts.length_pos (by omega)
  | succ bound ih =>
    cases he with
    | primary he =>
      refine .peekStarts he.starts fun t ht => ?_
      rw [if_neg (by rintro ⟨⟩; cases ht)]
      exact h ts e hlength he
    | @minusLiteral ts x he =>
      rw [List.length_cons] at hbound hlength
      refine .peek ?_
      rw [if_pos rfl]
      exact .advance ((ih (by omega) (by omega) he).andThen (.pure _) fun _ => id)
    | @minus ts e he hne =>
      rw [List.length_cons] at hbound hlength
      refine .peek ?_
      rw [if_pos rfl, ← negate_of_ne_literal hne]
      exact .advance ((ih (by omega) (by omega) he).andThen (.pure _) fun _ => id)

/-- The arguments up to the closing parenthesis are put behind those given. -/
theorem accepts_argumentsTail (h : Complete n extendsExpression inner Expression) (bound : Nat)
    {ts : List Token} {es : List Expr} (hbound : ts.length ≤ bound) (hlength : ts.length ≤ n)
    (hes : Arguments ts es) (done : List Expr) :
    Accepts extend (argumentsTail inner bound done) (ts ++ [.rightParen]) (done.reverse ++ es) := by
  induction bound generalizing ts es done with
  | zero => exact absurd hes.starts.length_pos (by omega)
  | succ bound ih =>
    cases hes with
    | @one _ e he =>
      have hall : done.reverse ++ [e] = (e :: done).reverse := List.reverse_cons.symm
      rw [hall]
      exact (h ts e hlength he).bind (.peek (.advance (.pure _))) fun rest _ => ends_cons rfl _
    | @more ts us e es he hes =>
      rw [List.length_append, List.length_cons] at hlength hbound
      have hall : done.reverse ++ e :: es = (e :: done).reverse ++ es := by simp
      have htokens : ts ++ .comma :: us ++ [.rightParen] = ts ++ .comma :: (us ++ [.rightParen]) :=
        List.append_assoc ..
      rw [hall, htokens]
      refine (h ts e (by omega) he).bind (.peek (.advance ?_)) fun rest _ => ends_cons rfl _
      exact ih (by omega) (by omega) hes (e :: done)

theorem accepts_arguments (h : Complete n extendsExpression inner Expression) {ts : List Token}
    {es : List Expr} (hlength : ts.length ≤ n) (hes : Arguments ts es) :
    Accepts extend (arguments inner) (.leftParen :: ts ++ [.rightParen]) es := by
  refine (accepts_expect .leftParen).bind ?_ fun _ _ _ _ => rfl
  refine .peekStarts (hes.starts.append _) fun t ht => ?_
  rw [if_neg (by rintro ⟨⟩; cases ht)]
  refine .remaining fun m hm => ?_
  change (ts ++ [Token.rightParen]).length ≤ m at hm
  rw [List.length_append] at hm
  exact accepts_argumentsTail h (m + 1) (by omega) hlength hes []

theorem accepts_noArguments : Accepts extend (arguments inner) [.leftParen, .rightParen] [] := by
  refine (accepts_expect .leftParen).bind (.peek ?_) fun _ _ _ _ => rfl
  rw [if_pos rfl]
  exact .advance (.pure [])

theorem accepts_primary (h : Complete n extendsExpression inner Expression) :
    Complete (n + 1) extendsPrimary (primary inner) Primary := by
  intro ts e hlength he
  cases he with
  | number x => exact .peek (.advance (.pure _))
  | ident name =>
    refine .peek (.advance (.peekEnd fun next hend => ?_))
    rw [if_neg fun hnext => by have := hend _ hnext; cases this]
    exact .pure _
  | callNone name =>
    refine .peek (.advance (.peek ?_))
    rw [if_pos rfl]
    exact accepts_noArguments.andThen (.pure _) fun _ => id
  | @call ts args name hargs =>
    rw [List.length_append, List.length_cons, List.length_cons] at hlength
    refine .peek (.advance (.peek ?_))
    rw [if_pos rfl]
    exact (accepts_arguments h (by omega) hargs).andThen (.pure _) fun _ => id
  | @paren ts e he =>
    rw [List.length_append, List.length_cons] at hlength
    refine .peek (.advance ((h ts e (by omega) he).bind ?_ fun rest _ => ends_cons rfl _))
    exact (accepts_expect .rightParen).andThen (.pure e) fun _ _ => rfl

/-- An operator of one level extends no tighter level. -/
theorem extends_of_operator :
    (∀ t node, multiplicative t = some node → extendsPrimary t = false) ∧
      (∀ t node, additive t = some node → extendsProduct t = false) ∧
      (∀ t node, conjunction t = some node → extendsComparison t = false) ∧
      ∀ t node, disjunction t = some node → extendsConjunction t = false := by
  refine ⟨?_, ?_, ?_, ?_⟩
  all_goals
    intro t node ht
    cases t with
    | arith op => cases op <;> first | rfl | cases ht
    | _ => first | rfl | cases ht

theorem accepts_levels (h : Complete n extendsExpression inner Expression) :
    Complete (n + 1) extendsExpression (levels inner) Expression := by
  obtain ⟨hproduct, hsum, hconjunction, hexpression⟩ := extends_of_operator
  have hunary : Complete (n + 1) extendsPrimary (do unary (primary inner) (← remaining)) Unary :=
    fun ts e hlength he => .remaining fun m hm => accepts_unary (accepts_primary h) m hm hlength he
  have hsums : Complete (n + 1) extendsSum (leftAssoc additive (leftAssoc multiplicative
      (do unary (primary inner) (← remaining)))) Sum := fun ts e hlength he =>
    accepts_leftAssoc (fun ts e hlength he =>
      accepts_leftAssoc hunary hproduct ts e hlength he.joined) hsum ts e hlength he.joined
  intro ts e hlength he
  refine accepts_leftAssoc (fun ts e hlength he => ?_) hexpression ts e hlength he.joined
  exact accepts_leftAssoc (accepts_comparison hsums) hconjunction ts e hlength he.joined

theorem accepts_nested (n : Nat) : Complete n extendsExpression (nested n) Expression := by
  induction n with
  | zero => exact fun ts e hlength he => absurd he.starts.length_pos (by omega)
  | succ n ih => exact accepts_levels ih

/-- **A derivable expression is accepted.** -/
theorem accepts_expression {ts : List Token} {e : Expr} (h : Expression ts e) :
    Accepts extendsExpression expression ts e :=
  .remaining fun n hn => accepts_nested (n + 1) ts e (by omega) h

end Expressions

/-! ### Statements -/

section Statements

variable {inner : Parser (Option Expr)} {extend : Token → Bool} {n : Nat}

theorem Accepts.unlessAtEnd {α : Type} {p q : Parser α} {ts : List Token} {a : α}
    (hts : Starts startsStatement ts) (h : Accepts extend q ts a) :
    Accepts extend (do if (← get).atEnd then p else q) ts a := by
  intro c rest hc hrest
  have hend : c.atEnd = false := by
    obtain ⟨t, us, rfl, ht⟩ := hts
    rw [Cursor.atEnd, Cursor.peek_eq_head?, hc]
    exact decide_eq_false (by rintro rfl; cases ht)
  change ∃ c', (if c.atEnd then p else q) c = .ok a c' ∧ c'.tokens = rest
  rw [hend]
  exact h c rest hc hrest

/-- The statements up to the closing brace are put behind those given. -/
theorem accepts_statements (h : Complete n (fun _ => false) inner Statement) (bound : Nat)
    {ts : List Token} {es : List Expr} (hbound : ts.length < bound) (hlength : ts.length ≤ n)
    (hes : Statements ts es) (done : List Expr) :
    Accepts extend (statements inner bound done) (ts ++ [.rightBrace]) (done.reverse ++ es) := by
  induction bound generalizing ts es done with
  | zero => exact absurd hbound (Nat.not_lt_zero _)
  | succ bound ih =>
    cases hes with
    | nil =>
      refine .peek ?_
      rw [if_pos rfl, List.append_nil]
      exact .advance (.pure _)
    | @cons ts us s es hs hes =>
      rw [List.length_append] at hbound hlength
      have hpos := hs.starts.length_pos
      rw [← reverse_toList_append, List.append_assoc]
      refine .peekStarts (hs.starts.append _) fun t ht => ?_
      rw [if_neg (by rintro ⟨⟩; cases ht)]
      refine .unlessAtEnd (hs.starts.append _) ?_
      exact (h ts s (by omega) hs).bind (ih (by omega) (by omega) hes _) fun _ _ _ _ => rfl

theorem accepts_block (h : Complete n (fun _ => false) inner Statement) {ts : List Token} {b : Expr}
    (hlength : ts.length ≤ n + 1) (hb : Block ts b) : Accepts extend (block inner) ts b := by
  obtain @⟨ts, es, hes⟩ := hb
  rw [List.length_append, List.length_cons] at hlength
  refine (accepts_expect .leftBrace).bind (.remaining fun m hm => ?_) fun _ _ _ _ => rfl
  change (ts ++ [Token.rightBrace]).length ≤ m at hm
  rw [List.length_append] at hm
  exact (accepts_statements h (m + 1) (by omega) (by omega) hes []).andThen (.pure _) fun _ => id

theorem accepts_conditional (h : Complete n (fun _ => false) inner Statement) {ts us : List Token}
    {e b : Expr} (hlength : us.length ≤ n + 1) (he : Expression ts e) (hb : Block us b) :
    Accepts extend (conditional inner) (.ifWord :: .leftParen :: ts ++ .rightParen :: us)
      (.conditional e b) := by
  refine .advance ((accepts_expect .leftParen).bind ?_ fun _ _ _ _ => rfl)
  refine (accepts_expression he).bind ?_ fun _ _ => ends_cons rfl _
  refine (accepts_expect .rightParen).bind ?_ fun _ _ _ _ => rfl
  refine .peekStarts hb.starts fun t ht => ?_
  rw [if_pos (congrArg some (of_decide_eq_true ht))]
  exact (accepts_block h hlength hb).andThen (.pure _) fun _ => id

/-- An expression and its semicolon, with what is made of them. -/
theorem accepts_terminated (make : Expr → Expr) {ts : List Token} {e : Expr}
    (he : Expression ts e) :
    Accepts extend (do let e ← expression; expect .semicolon; return make e)
      (ts ++ [.semicolon]) (make e) :=
  (accepts_expression he).bind
    ((accepts_expect .semicolon).andThen (.pure _) fun _ _ => rfl) fun _ _ => ends_cons rfl _

theorem accepts_assignment (name : String) {ts : List Token} {e : Expr} (he : Expression ts e) :
    Accepts extend simpleStatement (.ident name :: .assign :: ts ++ [.semicolon])
      (.assign name e) := by
  intro c rest hc hrest
  have hfirst : c.peek = some (.ident name) := by rw [Cursor.peek_eq_head?, hc]; rfl
  have hsecond : c.peekSecond = some .assign := by rw [Cursor.peekSecond_eq_head?, hc]; rfl
  have hvalue : c.advance.advance.tokens = ts ++ [.semicolon] ++ rest := by
    rw [Cursor.tokens_advance, Cursor.tokens_advance, hc]
    rfl
  rw [simpleStatement_assign hfirst hsecond]
  exact accepts_terminated (.assign name) he _ rest hvalue hrest

/-- The second token of an expression statement is no `=`, so it is not taken
for an assignment. -/
theorem accepts_simpleExpression {ts : List Token} {e : Expr} (he : Expression ts e) :
    Accepts extend simpleStatement (ts ++ [.semicolon]) e := by
  intro c rest hc hrest
  have hsecond : c.peekSecond ≠ some .assign := by
    have hall := he.all_tokens
    obtain ⟨t, us, rfl, -⟩ := he.starts
    rw [Cursor.peekSecond_eq_head?, hc]
    cases us with
    | nil => rintro ⟨⟩
    | cons u us =>
      rintro ⟨⟩
      simp [inExpression] at hall
  rw [simpleStatement_expression fun _ _ => hsecond]
  exact accepts_terminated id he c rest hc hrest

theorem accepts_statementOver (h : Complete n (fun _ => false) inner Statement) :
    Complete (n + 1) (fun _ => false) (statementOver inner) Statement := by
  intro ts s hlength hs
  cases hs with
  | empty => exact .peek (.advance (.pure none))
  | @conditional ts us c b hc hb =>
    rw [List.length_append, List.length_cons, List.length_cons, List.length_cons] at hlength
    exact .peek ((accepts_conditional h (by omega) hc hb).andThen (.pure _) fun _ => id)
  | block hb =>
    refine .peekStarts hb.starts fun t ht => ?_
    rw [of_decide_eq_true ht]
    exact (accepts_block h hlength hb).andThen (.pure _) fun _ => id
  | assign name he =>
    exact .peek ((accepts_assignment name he).andThen (.pure _) fun _ => id)
  | @expression ts e he =>
    refine .peekStarts (he.starts.append _) fun t ht => ?_
    split
    case h_4 => exact (accepts_simpleExpression he).andThen (.pure _) fun _ => id
    all_goals
      rename_i hnext
      cases hnext
      cases ht

theorem accepts_statementNested (n : Nat) :
    Complete n (fun _ => false) (statementNested n) Statement := by
  induction n with
  | zero => exact fun ts s hlength hs => absurd hs.starts.length_pos (by omega)
  | succ n ih => exact accepts_statementOver ih

theorem accepts_statement {ts : List Token} {s : Option Expr} (h : Statement ts s) :
    Accepts (fun _ => false) statement ts s :=
  .remaining fun n hn => accepts_statementNested (n + 1) ts s (by omega) h

/-- **A derivable program is accepted,** if no statement can start behind it. -/
theorem accepts_programTail (bound : Nat) {ts : List Token} {es : List Expr}
    (hbound : ts.length ≤ bound) (hes : Statements ts es) (done : List Expr) :
    Accepts (fun t => t ≠ .endOfInput) (programTail bound done) ts (done.reverse ++ es) := by
  induction bound generalizing ts es done with
  | zero =>
    cases hes with
    | nil =>
      rw [List.append_nil]
      exact .pure _
    | cons hs hes =>
      have hpos := hs.starts.length_pos
      rw [List.length_append] at hbound
      omega
  | succ bound ih =>
    cases hes with
    | nil =>
      intro c rest hc hrest
      have hend : c.atEnd = true := by
        rw [Cursor.atEnd, Cursor.peek_eq_head?, hc]
        cases rest with
        | nil => rfl
        | cons t rest => simpa using hrest t rfl
      refine ⟨c, ?_, hc⟩
      change (if c.atEnd then _ else _ : Parser (List Expr)) c = _
      rw [hend, List.append_nil]
      rfl
    | @cons ts us s es hs hes =>
      have hpos := hs.starts.length_pos
      rw [List.length_append] at hbound
      rw [← reverse_toList_append]
      refine .unlessAtEnd (hs.starts.append _) ?_
      exact (accepts_statement hs).bind (ih (by omega) hes _) fun _ _ _ _ => rfl

end Statements

/-! ### Programs -/

section Programs

variable {c : Cursor} {ts : List Token} {p : Expr}

/-- In front of the tokens of a program and the end of the input, the parser
returns the tree of the program. -/
theorem program_of_derivation (hc : c.tokens = ts ++ [.endOfInput]) (h : Program ts p) :
    ∃ c', program c = .ok p c' := by
  obtain ⟨hes⟩ := h
  have hend : Ends (fun t => t ≠ .endOfInput) [.endOfInput] := ends_cons rfl []
  have hbound : ts.length ≤ c.rest.length := by
    rw [Cursor.length_rest, hc, List.length_append]
    omega
  obtain ⟨c', hc', -⟩ := accepts_programTail c.rest.length hbound hes [] c _ hc hend
  refine ⟨c', bind_eq_ok_iff.2 ⟨_, c, rfl, bind_eq_ok_iff.2 ⟨_, c', hc', rfl⟩⟩⟩

/-- What the parser returns is derived from all the tokens before the end of the
input. -/
theorem derivation_of_program (hc : c.tokens = ts ++ [.endOfInput])
    (hts : .endOfInput ∉ ts) {c' : Cursor} (h : program c = .ok p c') : Program ts p := by
  obtain ⟨_, _, hn, h⟩ := bind_eq_ok_iff.1 h
  cases hn
  obtain ⟨_, _, htail, hp⟩ := bind_eq_ok_iff.1 h
  cases hp
  have hbound : c.tokens.length ≤ c.rest.length := Nat.le_of_eq c.length_rest.symm
  obtain ⟨us, es, htokens, rfl, hes, hend⟩ := sound_programTail hbound htail
  rw [hc] at htokens
  cases hrest : c'.tokens with
  | nil =>
    -- The end of the input would stand in a statement.
    rw [hrest, List.append_nil] at htokens
    have hmem : .endOfInput ∈ us := htokens ▸ List.mem_append_right ts (List.mem_singleton.2 rfl)
    have := List.all_eq_true.1 hes.all_tokens _ hmem
    cases this
  | cons t rest =>
    rw [Cursor.atEnd, Cursor.peek_eq_head?, hrest] at hend
    obtain rfl : t = .endOfInput := of_decide_eq_true hend
    rw [hrest] at htokens
    obtain ⟨rfl, -⟩ := (List.append_cons_inj_of_notMem hts List.not_mem_nil).1 htokens
    exact .block hes

/-- **The grammar is not ambiguous,** since the parser returns one tree. -/
theorem tree_unique {q : Expr} (hp : Program ts p) (hq : Program ts q) : p = q := by
  have hc : Cursor.tokens ⟨(ts ++ [Token.endOfInput]).map (⟨·, .start⟩), none⟩ =
      ts ++ [.endOfInput] := by
    rw [Cursor.tokens, List.map_map]
    exact List.map_id _
  obtain ⟨d, hd⟩ := program_of_derivation hc hp
  obtain ⟨d', hd'⟩ := program_of_derivation hc hq
  cases hd.symm.trans hd'
  rfl

/-- **The parser is the grammar.**  Before the end of the input, a row of tokens is
read as a tree if and only if the grammar derives the tree from the row; and it
derives one at most. -/
theorem program_eq_ok_iff (ts : List Located)
    (h : ∀ t ∈ ts, t.token.isLayout = false ∧ t.token ≠ .endOfInput) (span : Span) :
    (∀ p, (∃ c, program (.ofTokens (ts ++ [⟨.endOfInput, span⟩])) = .ok p c) ↔
      Program (ts.map (·.token)) p) ∧
      ∀ p q, Program (ts.map (·.token)) p → Program (ts.map (·.token)) q → p = q := by
  have hkept : Token.withoutLayout (ts ++ [⟨.endOfInput, span⟩]) = ts ++ [⟨.endOfInput, span⟩] := by
    refine List.filter_eq_self.2 fun t ht => ?_
    obtain ht | ht := List.mem_append.1 ht
    · rw [(h t ht).1]
      rfl
    · rw [List.mem_singleton.1 ht]
      rfl
  have hc : (Cursor.ofTokens (ts ++ [⟨.endOfInput, span⟩])).tokens =
      ts.map (·.token) ++ [.endOfInput] := by
    rw [Cursor.ofTokens, Cursor.tokens, hkept, List.map_append]
    rfl
  have hend : .endOfInput ∉ ts.map (·.token) := fun hmem => by
    obtain ⟨t, ht, heq⟩ := List.mem_map.1 hmem
    exact (h t ht).2 heq
  refine ⟨fun p => ⟨?_, program_of_derivation hc⟩, fun p q => tree_unique⟩
  rintro ⟨c, hp⟩
  exact derivation_of_program hc hend hp

/-- A minus sign before a name is a product, and products bind before the
difference, the difference before the comparison. -/
theorem program_eq_ok_iff_assignment :
    Program [.ident "x", .assign, .arith .sub, .ident "a", .arith .sub, .ident "b", .arith .mul,
      .ident "c", .cmp .lt, .ident "d", .semicolon, .semicolon]
      (.block [.assign "x" (.cmp .lt
        (.arith .sub (.arith .mul (.literal Single.one.neg) (.ident "a"))
          (.arith .mul (.ident "b") (.ident "c")))
        (.ident "d"))]) :=
  ((program_eq_ok_iff
    [⟨.ident "x", ⟨1, 1⟩⟩, ⟨.assign, ⟨1, 3⟩⟩, ⟨.arith .sub, ⟨1, 5⟩⟩, ⟨.ident "a", ⟨1, 6⟩⟩,
      ⟨.arith .sub, ⟨1, 8⟩⟩, ⟨.ident "b", ⟨1, 10⟩⟩, ⟨.arith .mul, ⟨1, 12⟩⟩, ⟨.ident "c", ⟨1, 14⟩⟩,
      ⟨.cmp .lt, ⟨1, 16⟩⟩, ⟨.ident "d", ⟨1, 18⟩⟩, ⟨.semicolon, ⟨1, 19⟩⟩, ⟨.semicolon, ⟨1, 20⟩⟩]
    (by decide) ⟨1, 21⟩).1 _).1 ⟨_, rfl⟩

end Programs
end Parser
end FieldScript
