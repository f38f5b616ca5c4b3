/-
# What the parser returns

A tree need not come from a source: its names may be anything, and statements
may stand where a value belongs.  Trees that come from a source are made as the
grammar makes them.  Values are made of values (`isValue`), statements of values
and of blocks (`isStatement`), and names are those that the scanner returns.

Each rule of the grammar keeps this, so it holds along every derivation, and
what the parser returns is derived.
-/

import FieldScript.Proofs.Acceptance
import FieldScript.Proofs.Spelling

namespace FieldScript

open Token

namespace Expr

/-! ### Trees of sources -/

mutual

/-- Whether the tree is one of an expression: values over values, with names that
are read as one token. -/
def isValue : Expr → Bool
  | literal _ => true
  | ident name => isName name
  | arith _ lhs rhs => isValue lhs && isValue rhs
  | call name args => isName name && areValues args
  | cmp _ lhs rhs => isValue lhs && isValue rhs
  | or lhs rhs => isValue lhs && isValue rhs
  | and lhs rhs => isValue lhs && isValue rhs
  | _ => false

def areValues : List Expr → Bool
  | [] => true
  | e :: es => isValue e && areValues es

end

mutual

/-- Whether the tree is one of a statement; the body of a conditional is a block. -/
def isStatement : Expr → Bool
  | block statements => areStatements statements
  | conditional condition (block statements) => isValue condition && areStatements statements
  | conditional _ _ => false
  | assign name value => isName name && isValue value
  | e => isValue e

def areStatements : List Expr → Bool
  | [] => true
  | e :: es => isStatement e && areStatements es

end

/-- Whether the tree is one of a program: a block of statements. -/
def isSurface : Expr → Bool
  | block statements => areStatements statements
  | _ => false

theorem isStatement_of_isValue {e : Expr} (h : e.isValue = true) : e.isStatement = true := by
  cases e with
  | block | conditional | assign => simp [isValue] at h
  | _ => exact h

theorem isStatement_of_isSurface {b : Expr} (h : b.isSurface = true) : b.isStatement = true := by
  cases b with
  | block => exact h
  | _ => cases h

theorem isStatement_conditional {c b : Expr} (hc : c.isValue = true) (hb : b.isSurface = true) :
    (conditional c b).isStatement = true := by
  cases b with
  | block =>
    rw [isStatement, Bool.and_eq_true]
    exact ⟨hc, hb⟩
  | _ => cases hb

theorem areStatements_one {e : Expr} (h : e.isStatement = true) : areStatements [e] = true := by
  rw [areStatements, areStatements, h]
  rfl

theorem areStatements_append (es fs : List Expr) :
    areStatements (es ++ fs) = (areStatements es && areStatements fs) := by
  induction es with
  | nil => rw [List.nil_append, areStatements, Bool.true_and]
  | cons e es ih => rw [List.cons_append, areStatements, areStatements, ih, Bool.and_assoc]

end Expr

/-! ### Derivations -/

namespace Grammar

theorem of_all_join {p : Token → Bool} {ts us : List Token} {t : Token}
    (h : (ts ++ t :: us).all p = true) : ts.all p = true ∧ us.all p = true := by
  rw [List.all_append, List.all_cons, Bool.and_eq_true, Bool.and_eq_true] at h
  exact ⟨h.1, h.2.2⟩

theorem values_of_join {ts us : List Token} {t : Token} {l r : Expr}
    (hl : ts.all wellNamed = true → l.isValue = true)
    (hr : us.all wellNamed = true → r.isValue = true)
    (h : (ts ++ t :: us).all wellNamed = true) : (l.isValue && r.isValue) = true := by
  obtain ⟨hts, hus⟩ := of_all_join h
  rw [hl hts, hr hus]
  rfl

mutual

theorem Expression.isValue {ts : List Token} {e : Expr} :
    Expression ts e → ts.all wellNamed = true → e.isValue = true
  | .conjunction h => h.isValue
  | .or hl hr => values_of_join hl.isValue hr.isValue

theorem Conjunction.isValue {ts : List Token} {e : Expr} :
    Conjunction ts e → ts.all wellNamed = true → e.isValue = true
  | .comparison h => h.isValue
  | .and hl hr => values_of_join hl.isValue hr.isValue

theorem Comparison.isValue {ts : List Token} {e : Expr} :
    Comparison ts e → ts.all wellNamed = true → e.isValue = true
  | .sum h => h.isValue
  | .cmp _ hl hr => values_of_join hl.isValue hr.isValue

theorem Sum.isValue {ts : List Token} {e : Expr} :
    Sum ts e → ts.all wellNamed = true → e.isValue = true
  | .product h => h.isValue
  | .add hl hr => values_of_join hl.isValue hr.isValue
  | .sub hl hr => values_of_join hl.isValue hr.isValue

theorem Product.isValue {ts : List Token} {e : Expr} :
    Product ts e → ts.all wellNamed = true → e.isValue = true
  | .unary h => h.isValue
  | .mul hl hr => values_of_join hl.isValue hr.isValue
  | .div hl hr => values_of_join hl.isValue hr.isValue
  | .mod hl hr => values_of_join hl.isValue hr.isValue

theorem Unary.isValue {ts : List Token} {e : Expr} :
    Unary ts e → ts.all wellNamed = true → e.isValue = true
  | .primary h => h.isValue
  | .minusLiteral _ => fun _ => rfl
  | .minus h _ => h.isValue

theorem Primary.isValue {ts : List Token} {e : Expr} :
    Primary ts e → ts.all wellNamed = true → e.isValue = true
  | .number _ => fun _ => rfl
  | .ident name => fun hts => (Bool.and_eq_true _ _ ▸ hts).1
  | .callNone name => fun hts => hts
  | .call name h => fun hts => by
    obtain ⟨hname, hts⟩ := (Bool.and_eq_true _ _).mp hts
    rw [Expr.isValue, Bool.and_eq_true]
    exact ⟨hname, h.areValues (of_all_join hts).1⟩
  | .paren h => fun hts => h.isValue (of_all_join hts).1

theorem Arguments.areValues {ts : List Token} {es : List Expr} :
    Arguments ts es → ts.all wellNamed = true → Expr.areValues es = true
  | .one h => fun hts => by
    rw [Expr.areValues, Expr.areValues, h.isValue hts]
    rfl
  | .more h hs => fun hts => by
    obtain ⟨hts, hus⟩ := of_all_join hts
    rw [Expr.areValues, h.isValue hts, hs.areValues hus]
    rfl

end

mutual

theorem Statement.areStatements {ts : List Token} {s : Option Expr} :
    Statement ts s → ts.all wellNamed = true → Expr.areStatements s.toList = true
  | .empty => fun _ => rfl
  | .conditional hc hb => fun hts => by
    obtain ⟨hts, hus⟩ := of_all_join hts
    exact Expr.areStatements_one (Expr.isStatement_conditional (hc.isValue hts) (hb.isSurface hus))
  | .block h => fun hts => Expr.areStatements_one (Expr.isStatement_of_isSurface (h.isSurface hts))
  | .assign name h => fun hts => by
    obtain ⟨hname, hts⟩ := (Bool.and_eq_true _ _).mp hts
    refine Expr.areStatements_one ?_
    rw [Expr.isStatement, Bool.and_eq_true]
    exact ⟨hname, h.isValue (of_all_join hts).1⟩
  | .expression h => fun hts =>
    Expr.areStatements_one (Expr.isStatement_of_isValue (h.isValue (of_all_join hts).1))

theorem Block.isSurface {ts : List Token} {b : Expr} :
    Block ts b → ts.all wellNamed = true → b.isSurface = true
  | .braces h => fun hts => h.areStatements (of_all_join hts).1

theorem Statements.areStatements {ts : List Token} {es : List Expr} :
    Statements ts es → ts.all wellNamed = true → Expr.areStatements es = true
  | .nil => fun _ => rfl
  | .cons h hs => fun hts => by
    rw [List.all_append, Bool.and_eq_true] at hts
    rw [Expr.areStatements_append, h.areStatements hts.1, hs.areStatements hts.2]
    rfl

end

end Grammar

namespace Expr

open Grammar

/-- The tokens of a source, without its layout, derive what the source is read as;
their names are words. -/
theorem derivation_of_ofSource {source : String} {p : Expr} (h : ofSource source = .ok p) :
    ∃ ts, ts.all wellNamed = true ∧ Program ts p := by
  rw [ofSource, scan] at h
  split at h
  · cases h
  rename_i located hlocated
  split at h
  case h_2 => cases h
  rename_i q c hparse
  cases h
  obtain ⟨front, last, rfl, hfront⟩ := of_scanFrom hlocated
  have hkept : ∀ t ∈ withoutLayout front, t.token ≠ .endOfInput ∧ t.token.wellNamed = true :=
    fun t ht => hfront t (List.mem_of_mem_filter ht)
  have hc : (Cursor.ofTokens (front ++ [⟨.endOfInput, last⟩])).tokens =
      (withoutLayout front).map (·.token) ++ [.endOfInput] := by
    rw [Cursor.ofTokens, Cursor.tokens, withoutLayout, List.filter_append, List.map_append]
    rfl
  refine ⟨(withoutLayout front).map (·.token), ?_, Parser.derivation_of_program hc ?_ hparse⟩
  · refine List.all_eq_true.2 fun t ht => ?_
    obtain ⟨u, hu, rfl⟩ := List.mem_map.1 ht
    exact (hkept u hu).2
  · intro ht
    obtain ⟨u, hu, hend⟩ := List.mem_map.1 ht
    exact (hkept u hu).1 hend

/-- **What is read from a source is a program.** -/
theorem isSurface_of_ofSource {source : String} {p : Expr} (h : ofSource source = .ok p) :
    p.isSurface = true := by
  obtain ⟨ts, hts, ⟨hes⟩⟩ := derivation_of_ofSource h
  exact hes.areStatements hts

end Expr
end FieldScript
