/-
# A parser sees no further than where it stops

A parser that stops in front of a token, with a value or a fault, has looked at
this token and those before it, so it stops there in the same way whatever
stands behind.  Two cursors are compared that stand before the same tokens and
then before `r` and `s` (`Beside`).  A run that ends before all of the shared
tokens are read has a twin from the other cursor (`Alike`).

Loops and nesting are bounded by the number of tokens left, which differs
between the two runs.  The second text is taken to be the longer one, by `δ`
tokens, and so are its bounds.  A bound is never felt: where it is used up there
are no shared tokens left.

The one place where two tokens are looked at is an assignment.  There the first
one is a name, which is read in any case.
-/

import FieldScript.Proofs.Acceptance

namespace FieldScript
namespace Parser

open Grammar

/-- Two runs return the same value, or both fail. -/
def Tallies {α : Type} :
    EStateM.Result ParseError Cursor α → EStateM.Result ParseError Cursor α → Prop
  | .ok a _, .ok b _ => a = b
  | .error _ _, .error _ _ => True
  | _, _ => False

theorem suffix_advance (c : Cursor) : c.advance.rest <:+ c.rest := by
  obtain ⟨rest, last⟩ := c
  cases rest with
  | nil => exact List.suffix_refl _
  | cons t rest => exact List.suffix_cons t rest

theorem exists_tokens_of_suffix {c d : Cursor} (h : d.rest <:+ c.rest) :
    ∃ us, c.tokens = us ++ d.tokens := by
  obtain ⟨front, hfront⟩ := h
  exact ⟨front.map (·.token), by rw [Cursor.tokens, ← hfront, List.map_append]; rfl⟩

/-- Two cursors stand before the same tokens, then before `r` and `s`. -/
structure Beside (r s ws : List Token) (c d : Cursor) : Prop where
  left : c.tokens = ws ++ r
  right : d.tokens = ws ++ s

/-- Two parsers end alike on cursors with a property: the first one only reads
forward, and where it leaves shared tokens unread, the second one leaves the
same and returns the same.  The first cursor has at most `n` tokens. -/
structure AlikeOn {α : Type} (r s : List Token) (P : Cursor → Prop) (n : Nat) (p q : Parser α) :
    Prop where
  reads : ∀ c, P c → c.tokens.length ≤ n → (stateLeft (p c)).rest <:+ c.rest
  agrees : ∀ c d ws vs, P c → P d → Beside r s ws c d → c.tokens.length ≤ n → vs ≠ [] →
    (stateLeft (p c)).tokens = vs ++ r → Tallies (p c) (q d) ∧ (stateLeft (q d)).tokens = vs ++ s

/-- Two parsers end alike. -/
abbrev Alike {α : Type} (r s : List Token) (n : Nat) (p q : Parser α) : Prop :=
  AlikeOn r s (fun _ => True) n p q

section Rules

variable {α β : Type} {r s : List Token} {P : Cursor → Prop} {n n' : Nat} {p q : Parser α}
  {f g : α → Parser β} {t : Token}

namespace AlikeOn

theorem mono (h : AlikeOn r s P n p q) (hle : n' ≤ n) : AlikeOn r s P n' p q where
  reads c hc hlength := h.reads c hc (Nat.le_trans hlength hle)
  agrees c d ws vs hc hd hbeside hlength :=
    h.agrees c d ws vs hc hd hbeside (Nat.le_trans hlength hle)

theorem on (h : Alike r s n p q) : AlikeOn r s P n p q where
  reads c _ := h.reads c trivial
  agrees c d ws vs _ _ := h.agrees c d ws vs trivial trivial

/-- A shared token is next where a run leaves shared tokens unread. -/
theorem exists_next {c d : Cursor} {ws vs : List Token} (hreads : (stateLeft (p c)).rest <:+ c.rest)
    (hbeside : Beside r s ws c d) (hvs : vs ≠ []) (hend : (stateLeft (p c)).tokens = vs ++ r) :
    ∃ t us, ws = t :: us ∧ c.peek = some t ∧ d.peek = some t := by
  obtain ⟨us, hus⟩ := exists_tokens_of_suffix hreads
  rw [hend, hbeside.left, ← List.append_assoc] at hus
  have hws := List.append_cancel_right hus
  cases ws with
  | nil => exact absurd (List.append_eq_nil_iff.1 hws.symm).2 hvs
  | cons t ws =>
    refine ⟨t, ws, rfl, ?_, ?_⟩
    · rw [Cursor.peek_eq_head?, hbeside.left]
      rfl
    · rw [Cursor.peek_eq_head?, hbeside.right]
      rfl

/-- Parsers that read nothing. -/
theorem still (hp : ∀ c, stateLeft (p c) = c) (hq : ∀ d, stateLeft (q d) = d)
    (h : ∀ c d, Tallies (p c) (q d)) : AlikeOn r s P n p q where
  reads c _ _ := by simp [hp]
  agrees c d ws vs _ _ hbeside _ _ hend := by
    rw [hp] at hend
    have hws : ws = vs := List.append_cancel_right (hbeside.left.symm.trans hend)
    rw [hq, ← hws]
    exact ⟨h c d, hbeside.right⟩

theorem pure (a : α) : AlikeOn r s P n (Pure.pure a) (Pure.pure a) :=
  still (fun _ => rfl) (fun _ => rfl) fun _ _ => rfl

theorem fail (fault : ParseFault) :
    AlikeOn r s P n (Parser.fail fault : Parser α) (Parser.fail fault) :=
  still (fun _ => rfl) (fun _ => rfl) fun _ _ => trivial

theorem unexpected (what : Expectation) :
    AlikeOn r s P n (Parser.unexpected what : Parser α) (Parser.unexpected what) :=
  still (fun _ => rfl) (fun _ => rfl) fun _ _ => trivial

/-- Where no token is left none is shared, so the second parser may be any. -/
theorem spent {q' : Parser α} (h : AlikeOn r s P 0 p q) : AlikeOn r s P 0 p q' where
  reads := h.reads
  agrees c d ws vs hc _ hbeside hlength hvs hend := by
    obtain ⟨t, us, rfl, -, -⟩ := exists_next (h.reads c hc hlength) hbeside hvs hend
    rw [hbeside.left] at hlength
    exact absurd hlength (Nat.not_succ_le_zero _)

/-- **Two parsers in a row.**  The second one starts with at most `n'` tokens. -/
theorem bindTo (hp : AlikeOn r s P n p q) (hf : ∀ a, Alike r s n' (f a) (g a))
    (hle : ∀ c a d, c.tokens.length ≤ n → p c = .ok a d → d.rest <:+ c.rest →
      d.tokens.length ≤ n') :
    AlikeOn r s P n (p >>= f) (q >>= g) where
  reads c hc hlength := by
    have hreads := hp.reads c hc hlength
    cases h : p c with
    | ok a d =>
      rw [h] at hreads
      rw [bind_of_ok h]
      exact ((hf a).reads d trivial (hle c a d hlength h hreads)).trans hreads
    | error e d =>
      rw [h] at hreads
      rwa [bind_of_error h]
  agrees c d ws vs hc hd hbeside hlength hvs hend := by
    have hreads := hp.reads c hc hlength
    have hagrees := fun vs => hp.agrees c d ws vs hc hd hbeside hlength
    cases h : p c with
    | ok a c' =>
      rw [h] at hreads hagrees
      rw [bind_of_ok h] at hend ⊢
      -- The first parser leaves what the second one reads and what it leaves.
      have hlength' := hle c a c' hlength h hreads
      obtain ⟨us, hus⟩ := exists_tokens_of_suffix ((hf a).reads c' trivial hlength')
      rw [hend, ← List.append_assoc] at hus
      obtain ⟨htallies, hq⟩ := hagrees (us ++ vs) (by simp [hvs]) hus
      cases h' : q d with
      | ok b d' =>
        rw [h'] at htallies hq
        obtain rfl : a = b := htallies
        rw [bind_of_ok h']
        exact (hf a).agrees c' d' (us ++ vs) vs trivial trivial ⟨hus, hq⟩ hlength' hvs hend
      | error e d' =>
        rw [h'] at htallies
        exact htallies.elim
    | error e c' =>
      rw [h] at hagrees
      rw [bind_of_error h] at hend ⊢
      obtain ⟨htallies, hq⟩ := hagrees vs hvs hend
      cases h' : q d with
      | ok b d' =>
        rw [h'] at htallies
        exact htallies.elim
      | error e' d' =>
        rw [h'] at hq
        rw [bind_of_error h']
        exact ⟨trivial, hq⟩

theorem bind (hp : AlikeOn r s P n p q) (hf : ∀ a, Alike r s n (f a) (g a)) :
    AlikeOn r s P n (p >>= f) (q >>= g) := by
  refine hp.bindTo hf fun c a d hlength _ hreads => Nat.le_trans ?_ hlength
  rw [← Cursor.length_rest, ← Cursor.length_rest]
  exact hreads.length_le

theorem peek {f g : Option Token → Parser β}
    (h : ∀ next, AlikeOn r s (fun c => c.peek = next) n (f next) (g next)) :
    AlikeOn r s P n (Parser.peek >>= f) (Parser.peek >>= g) where
  reads c _ := (h c.peek).reads c rfl
  agrees c d ws vs _ _ hbeside hlength hvs hend := by
    have hreads := (h c.peek).reads c rfl hlength
    obtain ⟨t, us, -, hc, hd⟩ := exists_next hreads hbeside hvs hend
    have hpeek : d.peek = c.peek := hd.trans hc.symm
    change Tallies (f c.peek c) (g d.peek d) ∧ (stateLeft (g d.peek d)).tokens = vs ++ s
    rw [hpeek]
    exact (h c.peek).agrees c d ws vs rfl hpeek hbeside hlength hvs hend

/-- The token that was seen is read. -/
theorem advance {f g : Unit → Parser β} (h : Alike r s (n - 1) (f ()) (g ())) :
    AlikeOn r s (fun c => c.peek = some t) n (Parser.advance >>= f) (Parser.advance >>= g) := by
  have hshorter : ∀ c : Cursor, c.peek = some t → c.tokens.length ≤ n →
      c.advance.tokens.length ≤ n - 1 := by
    intro c hc hlength
    rw [c.tokens_eq_cons hc, List.length_cons] at hlength
    omega
  have hreads : ∀ c : Cursor, c.peek = some t → c.tokens.length ≤ n →
      (stateLeft (f () c.advance)).rest <:+ c.rest := by
    intro c hc hlength
    exact (h.reads c.advance trivial (hshorter c hc hlength)).trans (suffix_advance c)
  refine ⟨hreads, fun c d ws vs hc hd hbeside hlength hvs hend => ?_⟩
  obtain ⟨u, us, rfl, -, -⟩ := @exists_next _ r s (Parser.advance >>= f) c d ws vs
    (hreads c hc hlength) hbeside hvs hend
  have hleft := (c.tokens_eq_cons hc).symm.trans hbeside.left
  have hright := (d.tokens_eq_cons hd).symm.trans hbeside.right
  exact h.agrees c.advance d.advance us vs trivial trivial
    ⟨(List.cons.inj hleft).2, (List.cons.inj hright).2⟩ (hshorter c hc hlength) hvs hend

theorem remaining {δ : Nat} (hδ : s.length = δ + r.length) {f g : Nat → Parser β}
    (h : ∀ i, i ≤ n → Alike r s i (f i) (g (δ + i))) :
    AlikeOn r s P n (Parser.remaining >>= f) (Parser.remaining >>= g) where
  reads c _ hlength := by
    have hi : c.rest.length ≤ n := c.length_rest ▸ hlength
    exact (h _ hi).reads c trivial (Nat.le_of_eq c.length_rest.symm)
  agrees c d ws vs _ _ hbeside hlength hvs hend := by
    have hd : d.rest.length = δ + c.rest.length := by
      rw [Cursor.length_rest, Cursor.length_rest, hbeside.left, hbeside.right, List.length_append,
        List.length_append]
      omega
    have hi : c.rest.length ≤ n := c.length_rest ▸ hlength
    change Tallies (f c.rest.length c) (g d.rest.length d) ∧
      (stateLeft (g d.rest.length d)).tokens = vs ++ s
    rw [hd]
    exact (h _ hi).agrees c d ws vs trivial trivial hbeside (Nat.le_of_eq c.length_rest.symm)
      hvs hend

/-- Whether a statement can start is seen from the next token. -/
theorem atEnd {p' q' : Parser α} (hp : Alike r s n p q) (hp' : Alike r s n p' q') :
    AlikeOn r s P n (do if (← get).atEnd then p else p') (do if (← get).atEnd then q else q') := by
  have hreads : ∀ c : Cursor, c.tokens.length ≤ n →
      (stateLeft ((if c.atEnd then p else p') c)).rest <:+ c.rest := by
    intro c hlength
    split
    · exact hp.reads c trivial hlength
    · exact hp'.reads c trivial hlength
  refine ⟨fun c _ => hreads c, fun c d ws vs _ _ hbeside hlength hvs hend => ?_⟩
  obtain ⟨t, us, -, hc, hd⟩ := @exists_next _ r s (do if (← get).atEnd then p else p') c d ws vs
    (hreads c hlength) hbeside hvs hend
  have hsame : d.atEnd = c.atEnd := by rw [Cursor.atEnd, Cursor.atEnd, hc, hd]
  change Tallies ((if c.atEnd then p else p') c) ((if d.atEnd then q else q') d) ∧
    (stateLeft ((if d.atEnd then q else q') d)).tokens = vs ++ s
  change (stateLeft ((if c.atEnd then p else p') c)).tokens = vs ++ r at hend
  rw [hsame]
  cases hend' : c.atEnd with
  | true =>
    rw [hend'] at hend
    exact hp.agrees c d ws vs trivial trivial hbeside hlength hvs hend
  | false =>
    rw [hend'] at hend
    exact hp'.agrees c d ws vs trivial trivial hbeside hlength hvs hend

/-- The given token is read, or both parsers fail. -/
theorem expect {f g : Unit → Parser β} (h : Alike r s (n - 1) (f ()) (g ())) :
    AlikeOn r s P n (Parser.expect t >>= f) (Parser.expect t >>= g) := by
  rw [Parser.expect, bind_assoc, bind_assoc]
  refine .peek fun next => ?_
  split
  · rename_i hnext
    subst hnext
    exact .advance h
  · exact (unexpected _).bindTo (fun _ => h) fun _ _ _ _ hok => by cases hok

end AlikeOn

end Rules

/-! ### Expressions -/

section Expressions

variable {r s : List Token} {δ n : Nat} {combine : Token → Option (Expr → Expr → Expr)}
  {operand operand' inner inner' : Parser Expr}

theorem alike_chain (h : Alike r s n operand operand') (bound : Nat) {i : Nat} (hi : i ≤ n)
    (hbound : i ≤ bound) (lhs : Expr) :
    Alike r s i (chain combine operand bound lhs) (chain combine operand' (δ + bound) lhs) := by
  induction bound generalizing i lhs with
  | zero => exact (AlikeOn.pure lhs).spent.mono hbound
  | succ bound ih =>
    refine .peek fun next => ?_
    cases hnode : next.bind combine with
    | none => exact .pure lhs
    | some node =>
      obtain ⟨t, rfl, -⟩ := Option.bind_eq_some_iff.1 hnode
      exact .advance ((h.mono (by omega)).bind fun rhs => ih (by omega) (by omega) _)

theorem alike_leftAssoc (hδ : s.length = δ + r.length) (h : Alike r s n operand operand') :
    Alike r s n (leftAssoc combine operand) (leftAssoc combine operand') :=
  h.bind fun lhs => .remaining hδ fun i hi => alike_chain h i hi (Nat.le_refl i) lhs

theorem alike_comparison (h : Alike r s n operand operand') :
    Alike r s n (comparison operand) (comparison operand') := by
  refine h.bind fun lhs => .peek fun next => ?_
  obtain ⟨op, rfl⟩ | hnext := Classical.em (∃ op, next = some (.cmp op))
  · refine .advance ((h.mono (Nat.sub_le n 1)).bind fun rhs => .peek fun next => ?_)
    split
    · exact (AlikeOn.fail _).bind fun _ => .pure _
    · exact .pure _
  · split
    · rename_i op
      exact absurd ⟨op, rfl⟩ hnext
    · exact .pure lhs

theorem alike_unary (h : Alike r s n operand operand') (bound : Nat) {i : Nat} (hi : i ≤ n)
    (hbound : i ≤ bound) :
    Alike r s i (unary operand bound) (unary operand' (δ + bound)) := by
  induction bound generalizing i with
  | zero => exact (h.mono (Nat.zero_le n)).spent.mono hbound
  | succ bound ih =>
    refine .peek fun next => ?_
    split
    · rename_i hnext
      subst hnext
      exact .advance ((ih (by omega) (by omega)).bind fun _ => .pure _)
    · exact (h.mono hi).on

theorem alike_argumentsTail (h : Alike r s n inner inner') (bound : Nat) {i : Nat} (hi : i ≤ n)
    (hbound : i ≤ bound) (args : List Expr) :
    Alike r s i (argumentsTail inner bound args) (argumentsTail inner' (δ + bound) args) := by
  induction bound generalizing i args with
  | zero => exact (AlikeOn.unexpected _).spent.mono hbound
  | succ bound ih =>
    refine (h.mono hi).bind fun arg => .peek fun next => ?_
    cases next with
    | none => exact .unexpected _
    | some t =>
      cases t with
      | comma => exact .advance (ih (by omega) (by omega) _)
      | rightParen => exact .advance (.pure _)
      | _ => exact .unexpected _

theorem alike_arguments (hδ : s.length = δ + r.length) (h : Alike r s n inner inner') :
    Alike r s n (arguments inner) (arguments inner') := by
  refine .expect (.peek fun next => ?_)
  split
  · rename_i hnext
    subst hnext
    exact .advance (.pure [])
  · exact .remaining hδ fun i hi => alike_argumentsTail h (i + 1) (by omega) (by omega) []

theorem alike_primary (hδ : s.length = δ + r.length) (h : Alike r s n inner inner') :
    Alike r s (n + 1) (primary inner) (primary inner') := by
  refine .peek fun next => ?_
  cases next with
  | none => exact .unexpected _
  | some t =>
    cases t with
    | number x => exact .advance (.pure _)
    | ident name =>
      refine .advance (.peek fun next => ?_)
      split
      · exact (alike_arguments hδ h).on.bind fun _ => .pure _
      · exact .pure _
    | leftParen => exact .advance (h.bind fun _ => .expect (.pure _))
    | _ => exact .unexpected _

theorem alike_levels (hδ : s.length = δ + r.length) (h : Alike r s n inner inner') :
    Alike r s (n + 1) (levels inner) (levels inner') := by
  have hunary : Alike r s (n + 1) (do unary (primary inner) (← remaining))
      (do unary (primary inner') (← remaining)) :=
    .remaining hδ fun i hi => alike_unary (alike_primary hδ h) i hi (Nat.le_refl i)
  exact alike_leftAssoc hδ (alike_leftAssoc hδ (alike_comparison
    (alike_leftAssoc hδ (alike_leftAssoc hδ hunary))))

theorem alike_nested (hδ : s.length = δ + r.length) (depth : Nat) :
    Alike r s depth (nested depth) (nested (δ + depth)) := by
  induction depth with
  | zero => exact (AlikeOn.unexpected _).spent
  | succ depth ih => exact alike_levels hδ ih

theorem alike_expression (hδ : s.length = δ + r.length) : Alike r s n expression expression :=
  .remaining hδ fun i _ => (alike_nested hδ (i + 1)).mono (Nat.le_succ i)

end Expressions

/-! ### Statements -/

section Statements

variable {r s : List Token} {δ n : Nat} {inner inner' : Parser (Option Expr)}

/-- A statement reads a token at least. -/
theorem lt_of_statement (h : Sound inner Statement) {c d : Cursor} {a : Option Expr}
    (hok : inner c = .ok a d) : d.tokens.length < c.tokens.length := by
  obtain ⟨ts, htokens, hts⟩ := h c a d hok
  have hpos := hts.starts.length_pos
  rw [htokens, List.length_append]
  omega

theorem alike_statements (h : Alike r s n inner inner') (hsound : Sound inner Statement)
    (bound : Nat) {i : Nat} (hi : i ≤ n) (hbound : i ≤ bound) (done : List Expr) :
    Alike r s i (statements inner bound done) (statements inner' (δ + bound) done) := by
  induction bound generalizing i done with
  | zero => exact (AlikeOn.unexpected _).spent.mono hbound
  | succ bound ih =>
    refine .peek fun next => ?_
    split
    · rename_i hnext
      subst hnext
      exact .advance (.pure _)
    · refine .atEnd (.unexpected _) ?_
      refine (h.mono hi).bindTo (fun next => @ih (i - 1) (by omega) (by omega) _) ?_
      intro c a d hlength hok _
      have := lt_of_statement hsound hok
      omega

theorem alike_block (hδ : s.length = δ + r.length) (h : Alike r s n inner inner')
    (hsound : Sound inner Statement) : Alike r s (n + 1) (block inner) (block inner') := by
  refine .expect (.remaining hδ fun i hi => ?_)
  exact (alike_statements h hsound (i + 1) hi (Nat.le_succ i) []).bind fun _ => .pure _

theorem alike_conditional (hδ : s.length = δ + r.length) (h : Alike r s n inner inner')
    (hsound : Sound inner Statement) :
    AlikeOn r s (fun c => c.peek = some .ifWord) (n + 1) (conditional inner)
      (conditional inner') := by
  refine .advance (.expect ((alike_expression hδ).bind fun _ => .expect (.peek fun next => ?_)))
  split
  · exact ((alike_block hδ h hsound).mono (by omega)).on.bind fun _ => .pure _
  · exact .unexpected _

/-- An expression with its semicolon. -/
theorem alike_terminated {β : Type} (hδ : s.length = δ + r.length) (node : Expr → β) :
    Alike r s n (do let e ← expression; expect .semicolon; return node e)
      (do let e ← expression; expect .semicolon; return node e) :=
  (alike_expression hδ).bind fun _ => .expect (.pure _)

/-- **A name is always read.**  Before `;` it is an expression, and a run that
left it unread would leave it there too. -/
theorem reads_name (node : Expr → Expr) {c : Cursor} {name : String}
    (hc : c.peek = some (.ident name)) :
    (stateLeft ((do let e ← expression; expect .semicolon; return node e : Parser Expr) c)).tokens ≠
      c.tokens := by
  intro hend
  have htokens := c.tokens_eq_cons hc
  generalize hrest : c.advance.tokens = rest at htokens
  let d : Cursor := ⟨(Token.ident name :: .semicolon :: rest).map (⟨·, .start⟩), none⟩
  have hd : d.tokens = [.ident name] ++ .semicolon :: rest := by
    rw [Cursor.tokens, List.map_map]
    exact List.map_id _
  have hname : Expression [.ident name] (.ident name) :=
    .conjunction (.comparison (.sum (.product (.unary (.primary (.ident name))))))
  -- With the semicolon the expression is accepted, and `rest` is left.
  have haccepts : Accepts (fun _ => false) _ _ _ := accepts_terminated node hname
  obtain ⟨d', hd', hleft⟩ := haccepts d rest (by rw [hd]; rfl) fun _ _ => rfl
  have hδ : (Token.semicolon :: rest).length = 1 + rest.length := Nat.add_comm rest.length 1
  have halike := @alike_terminated _ _ _ c.tokens.length _ hδ node
  have hagrees := halike.agrees c d [.ident name] [.ident name] trivial trivial ⟨htokens, hd⟩
    (Nat.le_refl _) (List.cons_ne_nil _ _) (hend.trans htokens)
  rw [hd'] at hagrees
  have hlength := congrArg List.length (hleft.symm.trans hagrees.2)
  simp only [List.length_append, List.length_cons, List.length_nil] at hlength
  omega

/-- Whether a statement starts as an assignment. -/
def AtAssignment (c : Cursor) : Prop :=
  ∃ name, c.peek = some (.ident name) ∧ c.peekSecond = some .assign

theorem simpleStatement_of_not {c : Cursor} (h : ¬AtAssignment c) :
    simpleStatement c = (do let e ← expression; expect .semicolon; return id e : Parser Expr) c :=
  simpleStatement_expression fun name hfirst hsecond => h ⟨name, hfirst, hsecond⟩

theorem reads_terminated (node : Expr → Expr) (c : Cursor) :
    (stateLeft ((do let e ← expression; expect .semicolon; return node e : Parser Expr) c)).rest <:+
      c.rest :=
  (@alike_terminated [] [] 0 c.tokens.length _ rfl node).reads c trivial (Nat.le_refl _)

theorem reads_simpleStatement (c : Cursor) : (stateLeft (simpleStatement c)).rest <:+ c.rest := by
  by_cases h : AtAssignment c
  · obtain ⟨name, hfirst, hsecond⟩ := h
    rw [simpleStatement_assign hfirst hsecond]
    exact (reads_terminated _ _).trans ((suffix_advance _).trans (suffix_advance c))
  · rw [simpleStatement_of_not h]
    exact reads_terminated id c

theorem simpleStatement_reads_name {c : Cursor} {name : String}
    (hc : c.peek = some (.ident name)) : (stateLeft (simpleStatement c)).tokens ≠ c.tokens := by
  by_cases h : AtAssignment c
  · obtain ⟨name', hfirst, hsecond⟩ := h
    intro hend
    rw [simpleStatement_assign hfirst hsecond] at hend
    obtain ⟨us, hus⟩ := exists_tokens_of_suffix
      ((reads_terminated (.assign name') c.advance.advance).trans (suffix_advance c.advance))
    have hlength := congrArg List.length hus
    rw [List.length_append, hend, c.tokens_eq_cons hc, List.length_cons] at hlength
    omega
  · rw [simpleStatement_of_not h]
    exact reads_name id hc

/-- The second token is shared too, or the first one is no name. -/
theorem exists_second {c d : Cursor} {ws vs : List Token} (hbeside : Beside r s ws c d)
    (hvs : vs ≠ []) (hend : (stateLeft (simpleStatement c)).tokens = vs ++ r) :
    (∃ t u us, ws = t :: u :: us) ∨ ¬AtAssignment c ∧ ¬AtAssignment d := by
  have hreads := reads_simpleStatement c
  obtain ⟨t, us, rfl, hc, hd⟩ := AlikeOn.exists_next hreads hbeside hvs hend
  cases us with
  | cons u us => exact .inl ⟨t, u, us, rfl⟩
  | nil =>
    have hname : ∀ name, t ≠ .ident name := by
      rintro name rfl
      obtain ⟨us, hus⟩ := exists_tokens_of_suffix hreads
      refine simpleStatement_reads_name hc ?_
      rw [hend, hbeside.left, ← List.append_assoc] at hus
      obtain ⟨-, rfl⟩ | ⟨-, rfl⟩ := List.singleton_eq_append_iff.1 (List.append_cancel_right hus)
      · rw [hend, hbeside.left]
      · exact absurd rfl hvs
    refine .inr ⟨?_, ?_⟩
    · rintro ⟨name, hfirst, -⟩
      exact hname name (Option.some.inj (hc.symm.trans hfirst))
    · rintro ⟨name, hfirst, -⟩
      exact hname name (Option.some.inj (hd.symm.trans hfirst))

theorem alike_simpleStatement (hδ : s.length = δ + r.length) :
    Alike r s n simpleStatement simpleStatement := by
  refine ⟨fun c _ _ => reads_simpleStatement c, fun c d ws vs _ _ hbeside hlength hvs hend => ?_⟩
  have hexpression : ¬AtAssignment c → ¬AtAssignment d →
      Tallies (simpleStatement c) (simpleStatement d) ∧
        (stateLeft (simpleStatement d)).tokens = vs ++ s := by
    intro hc hd
    rw [simpleStatement_of_not hc] at hend ⊢
    rw [simpleStatement_of_not hd]
    exact (alike_terminated hδ id).agrees c d ws vs trivial trivial hbeside hlength hvs hend
  obtain ⟨t, u, us, rfl⟩ | ⟨hc, hd⟩ := exists_second hbeside hvs hend
  · have hfirst : d.peek = c.peek := by
      rw [Cursor.peek_eq_head?, Cursor.peek_eq_head?, hbeside.left, hbeside.right]
      rfl
    have hsecond : d.peekSecond = c.peekSecond := by
      rw [Cursor.peekSecond_eq_head?, Cursor.peekSecond_eq_head?, hbeside.left, hbeside.right]
      rfl
    by_cases hc : AtAssignment c
    · obtain ⟨name, hname, hassign⟩ := hc
      rw [simpleStatement_assign hname hassign] at hend ⊢
      rw [simpleStatement_assign (hfirst.trans hname) (hsecond.trans hassign)]
      refine (alike_terminated hδ _).agrees c.advance.advance d.advance.advance us vs trivial
        trivial ⟨?_, ?_⟩ (n := n) ?_ hvs hend
      · rw [Cursor.tokens_advance, Cursor.tokens_advance, hbeside.left]
        rfl
      · rw [Cursor.tokens_advance, Cursor.tokens_advance, hbeside.right]
        rfl
      · rw [Cursor.tokens_advance, Cursor.tokens_advance, List.length_tail, List.length_tail]
        omega
    · refine hexpression hc ?_
      rintro ⟨name, hname, hassign⟩
      exact hc ⟨name, hfirst.symm.trans hname, hsecond.symm.trans hassign⟩
  · exact hexpression hc hd

theorem alike_statementOver (hδ : s.length = δ + r.length) (h : Alike r s n inner inner')
    (hsound : Sound inner Statement) :
    Alike r s (n + 1) (statementOver inner) (statementOver inner') := by
  refine .peek fun next => ?_
  have hsimple : AlikeOn r s (fun c => c.peek = next) (n + 1)
      (do return some (← simpleStatement)) (do return some (← simpleStatement)) :=
    (alike_simpleStatement hδ).on.bind fun _ => .pure _
  cases next with
  | none => exact hsimple
  | some t =>
    cases t with
    | semicolon => exact .advance (.pure none)
    | ifWord => exact (alike_conditional hδ h hsound).bind fun _ => .pure _
    | leftBrace => exact (alike_block hδ h hsound).on.bind fun _ => .pure _
    | _ => exact hsimple

theorem alike_statementNested (hδ : s.length = δ + r.length) (depth : Nat) :
    Alike r s depth (statementNested depth) (statementNested (δ + depth)) := by
  induction depth with
  | zero => exact (AlikeOn.unexpected _).spent
  | succ depth ih => exact alike_statementOver hδ ih (sound_statementNested depth)

theorem alike_statement (hδ : s.length = δ + r.length) : Alike r s n statement statement :=
  .remaining hδ fun i _ => (alike_statementNested hδ (i + 1)).mono (Nat.le_succ i)

theorem alike_programTail (hδ : s.length = δ + r.length) (bound : Nat) {i : Nat}
    (hbound : i ≤ bound) (done : List Expr) :
    Alike r s i (programTail bound done) (programTail (δ + bound) done) := by
  induction bound generalizing i done with
  | zero => exact (AlikeOn.pure _).spent.mono hbound
  | succ bound ih =>
    refine .atEnd (.pure _) ?_
    refine (alike_statement hδ).bindTo (fun next => @ih (i - 1) (by omega) _) ?_
    intro c a d hlength hok _
    have := lt_of_statement sound_statement hok
    omega

/-- **A program that fails before a token fails whatever follows the token,** if
more follows than before. -/
theorem alike_program (hδ : s.length = δ + r.length) : Alike r s n program program :=
  .remaining hδ fun i _ =>
    (alike_programTail hδ i (Nat.le_refl i) []).bind fun _ => .pure _

end Statements
end Parser
end FieldScript
