/-
# Recursive descent without bounds

The parser bounds its loops and its nesting by the number of tokens left.  Here
are its procedures with no such bounds: they call one another and themselves, and
a loop goes on for as long as it finds something, each round by a call of its
own.  How such a procedure runs is told by `Procedure.run`, with calls inside one
another up to a given depth.  Its answer is `none` if that depth is not enough,
and a procedure ends if there is one that is (`Settles`).

`EndsOn P least n p q` says what becomes of that.  From every cursor that has a
property and fewer than `n` tokens, the procedure `p` ends, with the answer of
the parser `q`; `q` only reads forward, also when it fails; and when it succeeds
it has read `least` tokens or more.  What follows in a row has so many tokens
less to read (`EndsOn.bind`), and that is the measure on which everything here
goes down.
-/

import FieldScript.Proofs.Lookahead

namespace FieldScript

/-- A part of a procedure: `none` if it needs calls that are deeper than allowed,
and the cursor is kept when it fails. -/
abbrev Descent := ExceptT ParseError (StateT Cursor Option)

/-- What a run of a parser ends with, and where. -/
def Descent.outcome {α : Type} :
    EStateM.Result ParseError Cursor α → Except ParseError α × Cursor
  | .ok a c => (.ok a, c)
  | .error e c => (.error e, c)

instance : MonadLift Parser Descent := ⟨fun p c => some (Descent.outcome (p c))⟩

/-- The levels of operators that are joined from the left, loosest first. -/
inductive OperatorLevel where
  | disjunction
  | conjunction
  | sum
  | product

/-- The operators of a level. -/
def OperatorLevel.combine : OperatorLevel → Token → Option (Expr → Expr → Expr)
  | disjunction => Parser.disjunction
  | conjunction => Parser.conjunction
  | sum => Parser.additive
  | product => Parser.multiplicative

/-- The procedures of the parser and their loops, each with what it returns. -/
inductive Procedure : Type → Type where
  | advance : Procedure Unit
  | expect (t : Token) : Procedure Unit
  | program : Procedure Expr
  | programTail (done : List Expr) : Procedure (List Expr)
  | statement : Procedure (Option Expr)
  | simpleStatement : Procedure Expr
  | conditional : Procedure Expr
  | block : Procedure Expr
  | statements (done : List Expr) : Procedure (List Expr)
  | joined (level : OperatorLevel) : Procedure Expr
  | chain (level : OperatorLevel) (lhs : Expr) : Procedure Expr
  | comparison : Procedure Expr
  | unary : Procedure Expr
  | primary : Procedure Expr
  | arguments : Procedure (List Expr)
  | argumentsTail (args : List Expr) : Procedure (List Expr)

/-- What a level joins. -/
def OperatorLevel.operand : OperatorLevel → Procedure Expr
  | disjunction => .joined .conjunction
  | conjunction => .comparison
  | sum => .joined .product
  | product => .unary

namespace Procedure

open FieldScript.Parser (peek fail unexpected)

/-- An expression is at the loosest level. -/
abbrev expression : Procedure Expr := .joined .disjunction

/-- What a procedure does, over the procedures that it calls. -/
def body (call : {β : Type} → Procedure β → Descent β) {α : Type} : Procedure α → Descent α
  | advance => Parser.advance
  | expect t => Parser.expect t
  | program => do return .block (← call (.programTail []))
  | programTail done => do
    if (← (get : Parser Cursor)).atEnd then return done.reverse
    else
      let next ← call .statement
      call (.programTail (next.toList ++ done))
  | statement => do
    match ← peek with
    | some .semicolon =>
      Parser.advance
      return none
    | some .ifWord => return some (← call .conditional)
    | some .leftBrace => return some (← call .block)
    | _ => return some (← call .simpleStatement)
  | simpleStatement => do
    let cursor ← (get : Parser Cursor)
    match cursor.peek, cursor.peekSecond with
    | some (.ident name), some .assign =>
      Parser.advance
      Parser.advance
      let value ← call expression
      Parser.expect .semicolon
      return .assign name value
    | _, _ =>
      let value ← call expression
      Parser.expect .semicolon
      return value
  | conditional => do
    Parser.advance
    Parser.expect .leftParen
    let condition ← call expression
    Parser.expect .rightParen
    if (← peek) = some .leftBrace then
      return .conditional condition (← call .block)
    else unexpected .blockOfCondition
  | block => do
    Parser.expect .leftBrace
    return .block (← call (.statements []))
  | statements done => do
    if (← peek) = some .rightBrace then
      Parser.advance
      return done.reverse
    else if (← (get : Parser Cursor)).atEnd then unexpected (.token .rightBrace)
    else
      let next ← call .statement
      call (.statements (next.toList ++ done))
  | joined level => do
    let lhs ← call level.operand
    call (.chain level lhs)
  | chain level lhs => do
    match (← peek).bind level.combine with
    | none => return lhs
    | some node =>
      Parser.advance
      let rhs ← call level.operand
      call (.chain level (node lhs rhs))
  | comparison => do
    let lhs ← call (.joined .sum)
    match ← peek with
    | some (.cmp op) =>
      Parser.advance
      let rhs ← call (.joined .sum)
      if (← peek).any Token.isComparison then fail .chainedComparison
      return .cmp op lhs rhs
    | _ => return lhs
  | unary => do
    if (← peek) = some (.arith .sub) then
      Parser.advance
      let operand ← call .unary
      return operand.negate
    else call .primary
  | primary => do
    match ← peek with
    | some (.number x) =>
      Parser.advance
      return .literal x
    | some (.ident name) =>
      Parser.advance
      if (← peek) = some .leftParen then
        return .call name (← call .arguments)
      else return .ident name
    | some .leftParen =>
      Parser.advance
      let inner ← call expression
      Parser.expect .rightParen
      return inner
    | _ => unexpected .expression
  | arguments => do
    Parser.expect .leftParen
    if (← peek) = some .rightParen then
      Parser.advance
      return []
    else call (.argumentsTail [])
  | argumentsTail args => do
    let arg ← call expression
    match ← peek with
    | some .comma =>
      Parser.advance
      call (.argumentsTail (arg :: args))
    | some .rightParen =>
      Parser.advance
      return (arg :: args).reverse
    | _ => unexpected .commaOrParen

/-- A run of a procedure, with calls inside one another up to a depth. -/
def run : Nat → {α : Type} → Procedure α → Descent α
  | 0, _, _ => fun _ => none
  | depth + 1, _, p => p.body (run depth)

/-! ### Procedures that end -/

/-- Enough depth gives an answer, and more gives the same. -/
def Settles {α : Type} (p : Nat → Descent α) (c : Cursor) (r : Except ParseError α × Cursor) :
    Prop :=
  ∃ depth, ∀ m, depth ≤ m → p m c = some r

/-- From cursors with a property and fewer than `n` tokens a procedure ends as a
parser does, which only reads forward, and at least `least` tokens when it
succeeds. -/
structure EndsOn {α : Type} (P : Cursor → Prop) (least n : Nat) (p : Nat → Descent α)
    (q : Parser α) : Prop where
  ends : ∀ c, P c → c.rest.length < n → Settles p c (Descent.outcome (q c))
  reads : ∀ c, P c → c.rest.length < n → (stateLeft (q c)).rest <:+ c.rest
  eats : ∀ c a d, P c → c.rest.length < n → q c = .ok a d → d.rest.length + least ≤ c.rest.length

/-- The same from all cursors with fewer than `n` tokens. -/
abbrev Ends {α : Type} (least n : Nat) (p : Nat → Descent α) (q : Parser α) : Prop :=
  EndsOn (fun _ => True) least n p q

section Rules

variable {α β : Type} {P : Cursor → Prop} {least read n : Nat} {p : Nat → Descent α}
  {q : Parser α} {f : Nat → α → Descent β} {g : α → Parser β} {c d : Cursor} {t : Token}

theorem Settles.of_eq {r : Except ParseError α × Cursor} (h : ∀ m, p m c = some r) :
    Settles p c r :=
  ⟨0, fun m _ => h m⟩

theorem Settles.bind_ok {a : α} {r : Except ParseError β × Cursor}
    (hp : Settles p c (.ok a, d)) (hf : Settles (fun m => f m a) d r) :
    Settles (fun m => p m >>= f m) c r := by
  obtain ⟨first, hfirst⟩ := hp
  obtain ⟨second, hsecond⟩ := hf
  refine ⟨max first second, fun m hm => ?_⟩
  change StateT.bind (p m) (ExceptT.bindCont (f m)) c = _
  rw [StateT.bind, hfirst m (by omega)]
  exact hsecond m (by omega)

theorem Settles.bind_error {e : ParseError} (hp : Settles p c (.error e, d)) :
    Settles (fun m => p m >>= f m) c (.error e, d) := by
  obtain ⟨depth, hdepth⟩ := hp
  refine ⟨depth, fun m hm => ?_⟩
  change StateT.bind (p m) (ExceptT.bindCont (f m)) c = _
  rw [StateT.bind, hdepth m hm]
  rfl

namespace EndsOn

theorem on (h : Ends least n p q) : EndsOn P least n p q where
  ends c _ := h.ends c trivial
  reads c _ := h.reads c trivial
  eats c a d _ := h.eats c a d trivial

theorem mono {n' : Nat} (h : EndsOn P least n' p q) (hn : n ≤ n') : EndsOn P least n p q where
  ends c hc hlt := h.ends c hc (Nat.lt_of_lt_of_le hlt hn)
  reads c hc hlt := h.reads c hc (Nat.lt_of_lt_of_le hlt hn)
  eats c a d hc hlt := h.eats c a d hc (Nat.lt_of_lt_of_le hlt hn)

theorem forget (h : EndsOn P least n p q) : EndsOn P 0 n p q where
  ends := h.ends
  reads := h.reads
  eats c a d hc hlt hok := Nat.le_of_add_right_le (h.eats c a d hc hlt hok)

/-- No cursor has fewer tokens than none. -/
theorem vacuous : EndsOn P least 0 p q where
  ends _ _ hlt := absurd hlt (Nat.not_lt_zero _)
  reads _ _ hlt := absurd hlt (Nat.not_lt_zero _)
  eats _ _ _ _ hlt := absurd hlt (Nat.not_lt_zero _)

/-- A call takes one level more than what it calls. -/
theorem call {p : Procedure α} (h : EndsOn P least n (fun m => p.body (run m)) q) :
    EndsOn P least n (fun m => run m p) q where
  ends c hc hlt := by
    obtain ⟨depth, hdepth⟩ := h.ends c hc hlt
    refine ⟨depth + 1, fun m hm => ?_⟩
    obtain ⟨m, rfl⟩ := Nat.exists_eq_add_one_of_ne_zero (by omega : m ≠ 0)
    exact hdepth m (by omega)
  reads := h.reads
  eats := h.eats

theorem pure (a : α) : EndsOn P 0 n (fun _ => Pure.pure a) (Pure.pure a) where
  ends _ _ _ := .of_eq fun _ => rfl
  reads c _ _ := List.suffix_refl c.rest
  eats c _ _ _ _ hok := by
    cases hok
    exact Nat.le_refl _

theorem fail (fault : ParseFault) :
    EndsOn P least n (fun _ => liftM (Parser.fail fault : Parser α)) (Parser.fail fault) where
  ends _ _ _ := .of_eq fun _ => rfl
  reads c _ _ := List.suffix_refl c.rest
  eats _ _ _ _ _ hok := by cases hok

theorem unexpected (what : Expectation) :
    EndsOn P least n (fun _ => liftM (Parser.unexpected what : Parser α))
      (Parser.unexpected what) where
  ends _ _ _ := .of_eq fun _ => rfl
  reads c _ _ := List.suffix_refl c.rest
  eats _ _ _ _ _ hok := by cases hok

/-- **Two procedures in a row.**  The second one has fewer tokens left, by what
the first one has read. -/
theorem bind (hp : EndsOn P read n p q)
    (hf : ∀ a, Ends (least - read) (n - read) (fun m => f m a) (g a)) :
    EndsOn P least n (fun m => p m >>= f m) (q >>= g) where
  ends c hc hlt := by
    have hends := hp.ends c hc hlt
    cases h : q c with
    | ok a d =>
      rw [h] at hends
      have hread := hp.eats c a d hc hlt h
      rw [bind_of_ok h]
      exact hends.bind_ok ((hf a).ends d trivial (by omega))
    | error e d =>
      rw [h] at hends
      rw [bind_of_error h]
      exact hends.bind_error
  reads c hc hlt := by
    have hreads := hp.reads c hc hlt
    cases h : q c with
    | ok a d =>
      rw [h] at hreads
      have hread := hp.eats c a d hc hlt h
      rw [bind_of_ok h]
      exact ((hf a).reads d trivial (by omega)).trans hreads
    | error e d =>
      rw [h] at hreads
      rwa [bind_of_error h]
  eats c b d hc hlt hok := by
    obtain ⟨a, c', ha, hb⟩ := bind_eq_ok_iff.1 hok
    have hfirst := hp.eats c a c' hc hlt ha
    have hsecond := (hf a).eats c' b d trivial (by omega) hb
    omega

theorem peek {f : Nat → Option Token → Descent β} {g : Option Token → Parser β}
    (h : ∀ next, EndsOn (fun c => c.peek = next) least n (fun m => f m next) (g next)) :
    EndsOn P least n (fun m => liftM Parser.peek >>= f m) (Parser.peek >>= g) where
  ends c _ := (h c.peek).ends c rfl
  reads c _ := (h c.peek).reads c rfl
  eats c a d _ := (h c.peek).eats c a d rfl

/-- A look at a token that is known. -/
theorem known {next : Option Token} {f : Nat → Option Token → Descent β} {g : Parser β}
    (h : EndsOn (fun c => c.peek = next) least n (fun m => f m next) g) :
    EndsOn (fun c => c.peek = next) least n (fun m => liftM Parser.peek >>= f m) g where
  ends c hc hlt := by
    change Settles (fun m => f m c.peek) c _
    rw [hc]
    exact h.ends c hc hlt
  reads := h.reads
  eats := h.eats

/-- With fewer tokens than one there is no next token. -/
theorem spent (hn : n ≤ 1) (h : EndsOn (fun c => c.peek = none) least n p q) :
    Ends least n p q := by
  have hnone : ∀ c : Cursor, c.rest.length < n → c.peek = none := by
    intro c hlt
    rw [Cursor.peek, List.eq_nil_of_length_eq_zero (by omega : c.rest.length = 0)]
    rfl
  exact ⟨fun c _ hlt => h.ends c (hnone c hlt) hlt, fun c _ hlt => h.reads c (hnone c hlt) hlt,
    fun c a d _ hlt => h.eats c a d (hnone c hlt) hlt⟩

theorem get {f : Nat → Cursor → Descent β} {g : Cursor → Parser β}
    (h : ∀ cursor, EndsOn (fun c => c = cursor) least n (fun m => f m cursor) (g cursor)) :
    EndsOn P least n (fun m => liftM (MonadState.get : Parser Cursor) >>= f m)
      (MonadState.get >>= g) where
  ends c _ := (h c).ends c rfl
  reads c _ := (h c).reads c rfl
  eats c a d _ := (h c).eats c a d rfl

/-- A bound that is read off the cursor. -/
theorem remaining {g : Nat → Parser α} (h : ∀ i, i < n → Ends least (i + 1) p (g i)) :
    EndsOn P least n p (Parser.remaining >>= g) where
  ends c _ hlt := (h c.rest.length hlt).ends c trivial (Nat.lt_succ_self _)
  reads c _ hlt := (h c.rest.length hlt).reads c trivial (Nat.lt_succ_self _)
  eats c a d _ hlt := (h c.rest.length hlt).eats c a d trivial (Nat.lt_succ_self _)

/-- A token is read, if there is one. -/
theorem skip : EndsOn P 0 n (fun _ => liftM Parser.advance) Parser.advance where
  ends _ _ _ := .of_eq fun _ => rfl
  reads c _ _ := Parser.suffix_advance c
  eats c _ _ _ _ hok := by
    cases hok
    exact (Parser.suffix_advance c).length_le

/-- The token that was seen is read. -/
theorem advance :
    EndsOn (fun c => c.peek = some t) 1 n (fun _ => liftM Parser.advance) Parser.advance where
  ends _ _ _ := .of_eq fun _ => rfl
  reads c _ _ := Parser.suffix_advance c
  eats c _ _ hc _ hok := by
    cases hok
    rw [Cursor.length_rest, Cursor.length_rest, c.tokens_eq_cons hc]
    exact Nat.le_refl _

theorem expect (t : Token) :
    EndsOn P 1 n (fun _ => liftM (Parser.expect t)) (Parser.expect t) where
  ends _ _ _ := .of_eq fun _ => rfl
  reads c _ _ := by
    change (stateLeft ((if c.peek = some t then Parser.advance else Parser.unexpected _) c)).rest <:+
      _
    split
    · exact Parser.suffix_advance c
    · exact List.suffix_refl c.rest
  eats c a d _ _ hok := by
    obtain ⟨ts, htokens, rfl⟩ := Parser.sound_expect t c a d hok
    rw [Cursor.length_rest, Cursor.length_rest, htokens, List.length_append, Nat.add_comm]
    exact Nat.le_refl _

end EndsOn

end Rules

/-! ### Expressions -/

section Expressions

variable {n : Nat} {level : OperatorLevel} {q inner : Parser Expr}

theorem ends_chain (h : Ends 1 n (run · level.operand) q) (bound : Nat) {m : Nat} (hm : m ≤ n)
    (hbound : m ≤ bound + 1) (lhs : Expr) :
    Ends 0 m (run · (chain level lhs)) (Parser.chain level.combine q bound lhs) := by
  induction bound generalizing m lhs with
  | zero => exact .spent hbound (.call (.known (.pure lhs)))
  | succ bound ih =>
    refine .call (.peek fun next => ?_)
    cases hnode : next.bind level.combine with
    | none => exact .pure lhs
    | some node =>
      obtain ⟨t, rfl, -⟩ := Option.bind_eq_some_iff.1 hnode
      refine EndsOn.advance.bind fun _ => ?_
      refine (h.mono (by omega)).bind fun rhs => ?_
      exact ih (by omega) (by omega) _

theorem ends_joined (h : Ends 1 n (run · level.operand) q) :
    Ends 1 n (run · (joined level)) (Parser.leftAssoc level.combine q) :=
  .call (h.bind fun lhs => .remaining fun i hi =>
    ends_chain h i (by omega) (Nat.le_refl _) lhs)

theorem ends_comparison (h : Ends 1 n (run · (joined .sum)) q) :
    Ends 1 n (run · comparison) (Parser.comparison q) := by
  refine .call (h.bind fun lhs => .peek fun next => ?_)
  cases next with
  | none => exact .pure lhs
  | some t =>
    cases t with
    | cmp op =>
      refine EndsOn.advance.bind fun _ => ?_
      refine (h.mono (by omega)).bind fun rhs => .peek fun next => ?_
      split
      · exact (@EndsOn.fail _ _ 0 _ _).bind fun _ => .pure _
      · exact .pure _
    | _ => exact .pure lhs

theorem ends_unary (h : Ends 1 n (run · primary) q) (bound : Nat) {m : Nat} (hm : m ≤ n)
    (hbound : m ≤ bound + 1) : Ends 1 m (run · unary) (Parser.unary q bound) := by
  induction bound generalizing m with
  | zero => exact .spent hbound (.call (.known (h.mono hm).on))
  | succ bound ih =>
    refine .call (.peek fun next => ?_)
    split
    · rename_i hnext
      subst hnext
      refine EndsOn.advance.bind fun _ => ?_
      exact (ih (by omega) (by omega)).forget.bind fun _ => .pure _
    · exact (h.mono hm).on

theorem ends_argumentsTail (h : Ends 1 n (run · expression) inner) (bound : Nat) {m : Nat}
    (hm : m ≤ n) (hbound : m ≤ bound) (args : List Expr) :
    Ends 1 m (run · (argumentsTail args)) (Parser.argumentsTail inner bound args) := by
  induction bound generalizing m args with
  | zero => exact EndsOn.vacuous.mono hbound
  | succ bound ih =>
    refine .call ((h.mono hm).bind fun arg => .peek fun next => ?_)
    cases next with
    | none => exact .unexpected _
    | some t =>
      cases t with
      | comma =>
        exact EndsOn.advance.bind fun _ => (ih (by omega) (by omega) _).forget
      | rightParen => exact EndsOn.advance.bind fun _ => .pure _
      | _ => exact .unexpected _

theorem ends_arguments (h : Ends 1 n (run · expression) inner) :
    Ends 1 n (run · arguments) (Parser.arguments inner) := by
  refine .call ((EndsOn.expect _).bind fun _ => .peek fun next => ?_)
  split
  · rename_i hnext
    subst hnext
    exact EndsOn.advance.bind fun _ => .pure []
  · refine .remaining fun i hi => ?_
    exact (ends_argumentsTail h (i + 1) (by omega) (Nat.le_refl _) []).forget

/-- A primary expression reads a token before the expression inside it. -/
theorem ends_primary (h : Ends 1 n (run · expression) inner) :
    Ends 1 (n + 1) (run · primary) (Parser.primary inner) := by
  refine .call (.peek fun next => ?_)
  cases next with
  | none => exact .unexpected _
  | some t =>
    cases t with
    | number x => exact EndsOn.advance.bind fun _ => .pure _
    | ident name =>
      refine EndsOn.advance.bind fun _ => .peek fun next => ?_
      split
      · exact (ends_arguments h).on.bind fun _ => .pure _
      · exact .pure _
    | leftParen =>
      refine EndsOn.advance.bind fun _ => h.bind fun e => ?_
      exact (EndsOn.expect _).bind fun _ => .pure e
    | _ => exact .unexpected _

end Expressions
end Procedure

namespace Parser

/-- Signs and an operand, over the expressions inside parentheses. -/
def signed (inner : Parser Expr) : Parser Expr := do unary (primary inner) (← remaining)

def sumOver (inner : Parser Expr) : Parser Expr :=
  leftAssoc additive (leftAssoc multiplicative (signed inner))

/-- What a level joins, over the expressions inside parentheses. -/
def operandOver (inner : Parser Expr) : OperatorLevel → Parser Expr
  | .product => signed inner
  | .sum => leftAssoc multiplicative (signed inner)
  | .conjunction => comparison (sumOver inner)
  | .disjunction => leftAssoc conjunction (comparison (sumOver inner))

end Parser

namespace Procedure

section Levels

variable {n : Nat} {inner : Parser Expr}

theorem ends_operand (h : Ends 1 n (run · expression) inner) (level : OperatorLevel) :
    Ends 1 (n + 1) (run · level.operand) (Parser.operandOver inner level) := by
  have hunary : Ends 1 (n + 1) (run · unary) (Parser.signed inner) :=
    .remaining fun i hi => ends_unary (ends_primary h) i hi (Nat.le_refl _)
  have hproduct := @ends_joined (n + 1) .product _ hunary
  have hcomparison := ends_comparison (@ends_joined (n + 1) .sum _ hproduct)
  cases level with
  | product => exact hunary
  | sum => exact hproduct
  | conjunction => exact hcomparison
  | disjunction => exact @ends_joined (n + 1) .conjunction _ hcomparison

/-- **An expression ends.**  The depth to which it may nest is not felt, since
each level of nesting reads a parenthesis. -/
theorem ends_nested (depth : Nat) (hdepth : n ≤ depth) :
    Ends 1 n (run · expression) (Parser.nested depth) := by
  induction depth generalizing n with
  | zero => exact EndsOn.vacuous.mono hdepth
  | succ depth ih =>
    have hlevels := ends_joined (ends_operand (ih (Nat.le_refl depth)) .disjunction)
    exact hlevels.mono hdepth

theorem ends_expression : Ends 1 n (run · expression) Parser.expression :=
  .remaining fun i _ => ends_nested (i + 1) (Nat.le_refl _)

end Levels

/-! ### Statements -/

section Statements

variable {n : Nat} {inner : Parser (Option Expr)}

theorem ends_terminated {β : Type} (node : Expr → β) :
    Ends 1 n
      (fun m => do let e ← run m expression; liftM (Parser.expect .semicolon); return node e)
      (do let e ← Parser.expression; Parser.expect .semicolon; return node e) :=
  ends_expression.bind fun e => (EndsOn.expect _).bind fun _ => .pure (node e)

theorem ends_simpleStatement : Ends 1 n (run · simpleStatement) Parser.simpleStatement := by
  refine .call (.get fun cursor => ?_)
  have hexpression : EndsOn (fun c => c = cursor) 1 n
      (fun m => do let e ← run m expression; liftM (Parser.expect .semicolon); return e)
      (do let e ← Parser.expression; Parser.expect .semicolon; return e) := (ends_terminated id).on
  dsimp only [body]
  generalize cursor.peek = first, cursor.peekSecond = second
  cases first with
  | none => exact hexpression
  | some t =>
    cases t with
    | ident name =>
      cases second with
      | none => exact hexpression
      | some u =>
        cases u with
        | assign =>
          refine EndsOn.skip.bind fun _ => EndsOn.skip.bind fun _ => ?_
          exact ends_terminated (Expr.assign name)
        | _ => exact hexpression
    | _ => exact hexpression

theorem ends_statements (h : Ends 1 n (run · statement) inner) (bound : Nat) {m : Nat}
    (hm : m ≤ n) (hbound : m ≤ bound) (done : List Expr) :
    Ends 1 m (run · (statements done)) (Parser.statements inner bound done) := by
  induction bound generalizing m done with
  | zero => exact EndsOn.vacuous.mono hbound
  | succ bound ih =>
    refine .call (.peek fun next => ?_)
    split
    · rename_i hnext
      subst hnext
      exact EndsOn.advance.bind fun _ => .pure _
    · refine .get fun cursor => ?_
      split
      · exact .unexpected _
      · refine (h.mono hm).on.bind fun next => ?_
        exact (ih (by omega) (by omega) _).forget

theorem ends_block (h : Ends 1 n (run · statement) inner) :
    Ends 1 (n + 1) (run · block) (Parser.block inner) := by
  refine .call ((EndsOn.expect _).bind fun _ => .remaining fun i hi => ?_)
  exact (ends_statements h (i + 1) hi (Nat.le_refl _) []).bind fun _ => .pure _

theorem ends_conditional (h : Ends 1 n (run · statement) inner) :
    Ends 1 (n + 1) (run · conditional) (Parser.conditional inner) := by
  refine .call (EndsOn.skip.bind fun _ => (EndsOn.expect _).bind fun _ => ?_)
  refine ends_expression.bind fun condition => (EndsOn.expect _).bind fun _ => .peek fun next => ?_
  split
  · exact ((ends_block h).mono (by omega)).on.bind fun _ => .pure _
  · exact .unexpected _

theorem ends_statementOver (h : Ends 1 n (run · statement) inner) :
    Ends 1 (n + 1) (run · statement) (Parser.statementOver inner) := by
  refine .call (.peek fun next => ?_)
  have hsimple : EndsOn (fun c => c.peek = next) 1 (n + 1)
      (fun m => do return some (← run m simpleStatement))
      (do return some (← Parser.simpleStatement)) :=
    ends_simpleStatement.on.bind fun _ => .pure _
  cases next with
  | none => exact hsimple
  | some t =>
    cases t with
    | semicolon => exact EndsOn.advance.bind fun _ => .pure none
    | ifWord => exact (ends_conditional h).on.bind fun _ => .pure _
    | leftBrace => exact (ends_block h).on.bind fun _ => .pure _
    | _ => exact hsimple

/-- **A statement ends,** since each level of nesting reads a brace. -/
theorem ends_statementNested (depth : Nat) (hdepth : n ≤ depth) :
    Ends 1 n (run · statement) (Parser.statementNested depth) := by
  induction depth generalizing n with
  | zero => exact EndsOn.vacuous.mono hdepth
  | succ depth ih =>
    exact (ends_statementOver (ih (Nat.le_refl depth))).mono hdepth

theorem ends_statement : Ends 1 n (run · statement) Parser.statement :=
  .remaining fun i _ => ends_statementNested (i + 1) (Nat.le_refl _)

theorem ends_programTail (bound : Nat) (hbound : n ≤ bound + 1) (done : List Expr) :
    Ends 0 n (run · (programTail done)) (Parser.programTail bound done) := by
  induction bound generalizing n done with
  | zero =>
    have hpure : EndsOn (fun c => c.peek = none) 0 n _ (Parser.programTail 0 done) := .pure _
    refine .spent hbound (.call ⟨fun c hc hlt => .of_eq fun m => ?_, hpure.reads, hpure.eats⟩)
    have hend : c.atEnd = true := by rw [Cursor.atEnd, hc]
    change (if c.atEnd then _ else _ : Descent (List Expr)) c = _
    rw [if_pos hend]
    rfl
  | succ bound ih =>
    refine .call (.get fun cursor => ?_)
    split
    · exact .pure _
    · exact ends_statement.on.bind fun next => ih (by omega) _

theorem ends_program : Ends 0 n (run · program) Parser.program :=
  .remaining fun i _ => .call ((ends_programTail i (Nat.le_refl _) []).bind fun _ => .pure _)

end Statements

end Procedure
end FieldScript
