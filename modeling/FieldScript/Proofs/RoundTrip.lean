/-
# Printed programs are read back

The text of a tree is taken apart in two steps, which are kept together: the
scanner reads a piece of text as tokens, and the grammar derives a tree from
them (`Printed`).  Operators and calls put such pieces together.  Inside them a
delimiter stands behind every piece, so no word runs into the next.

A literal prints its sign apart, as a minus sign that the parser puts back into
the literal.  Infinities and NaNs print as names, and are read as names
(`reread`); all other trees are read back as they are.
-/

import FieldScript.Expr.Printer
import FieldScript.Proofs.SurfaceTrees

namespace FieldScript
namespace Expr

open Grammar Token

/-! ### What is read back -/

mutual

/-- Whether all literals are finite. -/
def allFinite : Expr → Bool
  | block statements => allFiniteAll statements
  | conditional condition body => allFinite condition && allFinite body
  | literal x => x.isFinite
  | ident _ => true
  | assign _ value => allFinite value
  | arith _ lhs rhs => allFinite lhs && allFinite rhs
  | call _ args => allFiniteAll args
  | cmp _ lhs rhs => allFinite lhs && allFinite rhs
  | or lhs rhs => allFinite lhs && allFinite rhs
  | and lhs rhs => allFinite lhs && allFinite rhs

def allFiniteAll : List Expr → Bool
  | [] => true
  | e :: es => allFinite e && allFiniteAll es

end

/-- What a printed literal is read as: `inf` and `NaN` are names. -/
def rereadLiteral (x : Single) : Expr :=
  if x.isFinite then literal x
  else if x.isNaN then ident "NaN"
  else if x.isNegative then (ident "inf").negate
  else ident "inf"

mutual

/-- What a printed tree is read as. -/
def reread : Expr → Expr
  | block statements => block (rereadAll statements)
  | conditional condition body => conditional (reread condition) (reread body)
  | literal x => rereadLiteral x
  | ident name => ident name
  | assign name value => assign name (reread value)
  | arith op lhs rhs => arith op (reread lhs) (reread rhs)
  | call name args => call name (rereadAll args)
  | cmp op lhs rhs => cmp op (reread lhs) (reread rhs)
  | or lhs rhs => or (reread lhs) (reread rhs)
  | and lhs rhs => and (reread lhs) (reread rhs)

def rereadAll : List Expr → List Expr
  | [] => []
  | e :: es => reread e :: rereadAll es

end

/-! ### Only finite literals are kept -/

theorem rereadLiteral_eq_iff (x : Single) : rereadLiteral x = literal x ↔ x.isFinite = true := by
  rw [rereadLiteral]
  split
  · simp [*]
  · split
    · simp [*]
    · split <;> simp [negate, *]

theorem numEq_rereadLiteral (x : Single) : (rereadLiteral x).numEq (literal x) = x.isFinite := by
  rw [rereadLiteral]
  split
  case isTrue h =>
    simp [numEq, Single.numEq, Single.comparable, (Single.isFinite_iff.1 h).1, h]
  case isFalse h =>
    rw [Bool.eq_false_iff.2 h]
    split
    · rfl
    · split <;> rfl

mutual

theorem reread_eq_iff : (e : Expr) → (e.reread = e ↔ e.allFinite = true)
  | block ss => by simp [reread, allFinite, rereadAll_eq_iff ss]
  | conditional c b => by simp [reread, allFinite, reread_eq_iff c, reread_eq_iff b]
  | literal x => by simp [reread, allFinite, rereadLiteral_eq_iff]
  | ident name => by simp [reread, allFinite]
  | assign name v => by simp [reread, allFinite, reread_eq_iff v]
  | arith op l r => by simp [reread, allFinite, reread_eq_iff l, reread_eq_iff r]
  | call name args => by simp [reread, allFinite, rereadAll_eq_iff args]
  | cmp op l r => by simp [reread, allFinite, reread_eq_iff l, reread_eq_iff r]
  | or l r => by simp [reread, allFinite, reread_eq_iff l, reread_eq_iff r]
  | and l r => by simp [reread, allFinite, reread_eq_iff l, reread_eq_iff r]

theorem rereadAll_eq_iff : (es : List Expr) → (rereadAll es = es ↔ allFiniteAll es = true)
  | [] => by simp [rereadAll, allFiniteAll]
  | e :: es => by simp [rereadAll, allFiniteAll, reread_eq_iff e, rereadAll_eq_iff es]

end

mutual

theorem numEq_reread : (e : Expr) → e.reread.numEq e = e.allFinite
  | block ss => by simp [reread, numEq, allFinite, numEqAll_rereadAll ss]
  | conditional c b => by simp [reread, numEq, allFinite, numEq_reread c, numEq_reread b]
  | literal x => by rw [reread, allFinite, numEq_rereadLiteral]
  | ident name => by simp [reread, numEq, allFinite]
  | assign name v => by simp [reread, numEq, allFinite, numEq_reread v]
  | arith op l r => by simp [reread, numEq, allFinite, numEq_reread l, numEq_reread r]
  | call name args => by simp [reread, numEq, allFinite, numEqAll_rereadAll args]
  | cmp op l r => by simp [reread, numEq, allFinite, numEq_reread l, numEq_reread r]
  | or l r => by simp [reread, numEq, allFinite, numEq_reread l, numEq_reread r]
  | and l r => by simp [reread, numEq, allFinite, numEq_reread l, numEq_reread r]

theorem numEqAll_rereadAll : (es : List Expr) → numEqAll (rereadAll es) es = allFiniteAll es
  | [] => by simp [rereadAll, numEqAll, allFiniteAll]
  | e :: es => by simp [rereadAll, numEqAll, allFiniteAll, numEq_reread e, numEqAll_rereadAll es]

end

/-! ### Values -/

/-- A text is read as tokens from which the grammar derives something, if a
delimiter follows. -/
def Printed {α : Type} (D : List Token → α → Prop) (text : String) (a : α) : Prop :=
  ∃ ts, Spells text.toList ts ∧ D ts a

theorem printed_ident {name : String} (h : isName name = true) : Printed Unary name (ident name) :=
  ⟨_, spells_name h, .primary (.ident name)⟩

theorem printed_signed {text : String} {e : Expr} (h : Printed Unary text e) (negative : Bool) :
    Printed Unary ((if negative then "-" else "") ++ text) (if negative then e.negate else e) := by
  cases negative with
  | false => rwa [if_neg Bool.false_ne_true, if_neg Bool.false_ne_true, String.empty_append]
  | true =>
    obtain ⟨ts, hspells, hts⟩ := h
    refine ⟨_, ?_, Parser.negate_derives hts⟩
    rw [if_pos rfl, String.toList_append]
    exact spells_minus hspells

/-- The sign of a finite number is a minus sign before its digits, which negates
the literal. -/
theorem printed_literal (x : Single) : Printed Unary x.plain (rereadLiteral x) := by
  rw [Single.plain, Single.write, rereadLiteral]
  by_cases hfinite : x.isFinite = true
  · obtain ⟨whole, fraction, hparts, hvalue⟩ := Single.exists_parts_of_isFinite hfinite
    have hdigits : Printed Unary (String.ofList (Single.shortest x.magnitude).plain)
        (literal (.ofDecimal false (.ofParts whole fraction))) := by
      refine ⟨_, ?_, .primary (.number _)⟩
      rw [String.toList_ofList]
      exact spells_digits hparts
    have hprinted := printed_signed hdigits x.isNegative
    -- The minus sign goes into the literal, and with its sign the literal is `x`.
    rw [negate, ← apply_ite literal, hvalue _ rfl] at hprinted
    simpa [hfinite, Single.isFinite_iff.1 hfinite] using hprinted
  · rw [if_neg hfinite]
    split
    case isTrue => exact printed_ident (by decide)
    case isFalse hnan =>
      have hinfinite : x.isInfinite = true := by simpa [Single.isFinite_iff, hnan] using hfinite
      rw [hinfinite]
      exact printed_signed (printed_ident (by decide)) x.isNegative

/-! ### Binary operations -/

theorem derives_arith (op : ArithOp) {ts us : List Token} {l r : Expr} (hl : Unary ts l)
    (hr : Unary us r) : Expression (ts ++ .arith op :: us) (arith op l r) := by
  refine .conjunction (.comparison (.sum ?_))
  cases op with
  | add => exact .add (.product (.unary hl)) (.unary hr)
  | sub => exact .sub (.product (.unary hl)) (.unary hr)
  | mul => exact .product (.mul (.unary hl) hr)
  | div => exact .product (.div (.unary hl) hr)
  | mod => exact .product (.mod (.unary hl) hr)

theorem derives_cmp (op : CmpOp) {ts us : List Token} {l r : Expr} (hl : Unary ts l)
    (hr : Unary us r) : Expression (ts ++ .cmp op :: us) (cmp op l r) :=
  .conjunction (.comparison (.cmp op (.product (.unary hl)) (.product (.unary hr))))

theorem derives_comparison {ts : List Token} {e : Expr} (h : Unary ts e) : Comparison ts e :=
  .sum (.product (.unary h))

theorem derives_expression {ts : List Token} {e : Expr} (h : Unary ts e) : Expression ts e :=
  .conjunction (.comparison (derives_comparison h))

theorem printed_parenthesized {lhs symbol rhs : String} {t : Token} {l r e : Expr}
    (hl : Printed Unary lhs l) (hsymbol : Spells symbol.toList [t]) (hr : Printed Unary rhs r)
    (he : ∀ ts us, Unary ts l → Unary us r → Expression (ts ++ t :: us) e) :
    Printed Unary (parenthesized lhs symbol rhs) e := by
  obtain ⟨ts, hts, hl⟩ := hl
  obtain ⟨us, hus, hr⟩ := hr
  refine ⟨_, fun rest vs hrest hscans => ?_, .primary (.paren (he ts us hl hr))⟩
  have htext : (parenthesized lhs symbol rhs).toList ++ rest =
      '(' :: (lhs.toList ++ ' ' :: (symbol.toList ++ ' ' :: (rhs.toList ++ ')' :: rest))) := by
    simp [parenthesized]
  have htokens : .leftParen :: (ts ++ t :: us) ++ [.rightParen] ++ vs =
      .leftParen :: (ts ++ ([t] ++ (us ++ .rightParen :: vs))) := by
    simp
  rw [htext, htokens]
  -- From the right: a piece is read once it is known how the text behind it is.
  have hclose : Scans (')' :: rest) (.rightParen :: vs) := hscans.bracket rfl fun _ => rfl
  have hrhs := hus _ _ (delimited_cons (by decide) _) hclose
  have hoperator := hsymbol _ _ (delimited_cons (by decide) _) hrhs.blank
  have hlhs := hts _ _ (delimited_cons (by decide) _) hoperator.blank
  exact hlhs.bracket rfl fun _ => rfl

/-! ### Calls -/

theorem printed_argument {text : String} {e : Expr} (h : Printed Unary text e) :
    Printed Arguments (", ".intercalate [text]) [e] := by
  obtain ⟨ts, hts, he⟩ := h
  refine ⟨ts, ?_, .one (derives_expression he)⟩
  rwa [String.intercalate_singleton]

/-- A comma and a blank stand between arguments. -/
theorem printed_arguments {text next : String} {texts : List String} {e : Expr} {es : List Expr}
    (h : Printed Unary text e) (hs : Printed Arguments (", ".intercalate (next :: texts)) es) :
    Printed Arguments (", ".intercalate (text :: next :: texts)) (e :: es) := by
  obtain ⟨ts, hts, he⟩ := h
  obtain ⟨us, hus, hes⟩ := hs
  refine ⟨_, fun rest vs hrest hscans => ?_, .more (derives_expression he) hes⟩
  have htext : (", ".intercalate (text :: next :: texts)).toList ++ rest =
      text.toList ++ ',' :: ' ' :: ((", ".intercalate (next :: texts)).toList ++ rest) := by
    simp [String.intercalate_cons_cons]
  rw [htext, List.append_assoc]
  have hcomma := (hus rest vs hrest hscans).blank.bracket (c := ',') rfl fun _ => rfl
  exact hts _ _ (delimited_cons (by decide) _) hcomma

theorem spells_call {name arguments : String} {ts : List Token} (hname : isName name = true)
    (h : Spells arguments.toList ts) :
    Spells (name ++ "(" ++ arguments ++ ")").toList
      (.ident name :: .leftParen :: ts ++ [.rightParen]) := by
  intro rest vs hrest hscans
  have htext : (name ++ "(" ++ arguments ++ ")").toList ++ rest =
      name.toList ++ '(' :: (arguments.toList ++ ')' :: rest) := by
    simp
  have htokens : .ident name :: .leftParen :: ts ++ [.rightParen] ++ vs =
      [.ident name] ++ .leftParen :: (ts ++ .rightParen :: vs) := by
    simp
  rw [htext, htokens]
  have hclose : Scans (')' :: rest) (.rightParen :: vs) := hscans.bracket rfl fun _ => rfl
  have harguments := h _ _ (delimited_cons (by decide) _) hclose
  exact spells_name hname _ _ (delimited_cons (by decide) _) (harguments.bracket rfl fun _ => rfl)

mutual

/-- **A printed value is read back.** -/
theorem printed_value : (e : Expr) → e.isValue = true → Printed Unary e.surface e.reread
  | literal x, _ => by
    rw [surface, reread]
    exact printed_literal x
  | ident name, h => by
    rw [isValue] at h
    rw [surface, reread]
    exact printed_ident h
  | arith op l r, h => by
    rw [isValue, Bool.and_eq_true] at h
    rw [surface, reread]
    exact printed_parenthesized (printed_value l h.1) (spells_arith op) (printed_value r h.2)
      fun _ _ => derives_arith op
  | cmp op l r, h => by
    rw [isValue, Bool.and_eq_true] at h
    rw [surface, reread]
    exact printed_parenthesized (printed_value l h.1) (spells_cmp op) (printed_value r h.2)
      fun _ _ => derives_cmp op
  | or l r, h => by
    rw [isValue, Bool.and_eq_true] at h
    rw [surface, reread]
    exact printed_parenthesized (printed_value l h.1) spells_orOr (printed_value r h.2)
      fun _ _ hl hr => .or (derives_expression hl) (.comparison (derives_comparison hr))
  | and l r, h => by
    rw [isValue, Bool.and_eq_true] at h
    rw [surface, reread]
    exact printed_parenthesized (printed_value l h.1) spells_andAnd (printed_value r h.2)
      fun _ _ hl hr => .conjunction (.and (.comparison (derives_comparison hl)) (derives_comparison hr))
  | call name [], h => by
    rw [isValue, Bool.and_eq_true] at h
    rw [surface, reread]
    have hnone : Spells (", ".intercalate (surfaceAll [])).toList [] := fun _ _ _ => id
    exact ⟨_, spells_call h.1 hnone, .primary (.callNone name)⟩
  | call name (e :: es), h => by
    rw [isValue, Bool.and_eq_true] at h
    rw [surface, reread]
    obtain ⟨ts, hts, hes⟩ := printed_values (e :: es) (List.cons_ne_nil e es) h.2
    exact ⟨_, spells_call h.1 hts, .primary (.call name hes)⟩
  | block _, h => by simp [isValue] at h
  | conditional _ _, h => by simp [isValue] at h
  | assign _ _, h => by simp [isValue] at h

theorem printed_values : (es : List Expr) → es ≠ [] → areValues es = true →
    Printed Arguments (", ".intercalate (surfaceAll es)) (rereadAll es)
  | [], hne, _ => absurd rfl hne
  | [e], _, h => by
    rw [areValues, Bool.and_eq_true] at h
    exact printed_argument (printed_value e h.1)
  | e :: next :: es, _, h => by
    rw [areValues, Bool.and_eq_true] at h
    exact printed_arguments (printed_value e h.1)
      (printed_values (next :: es) (List.cons_ne_nil next es) h.2)

end

/-! ### Statements -/

/-- A text is read as tokens from which the grammar derives something, whatever
text follows. -/
def PrintedAlone {α : Type} (D : List Token → α → Prop) (text : String) (a : α) : Prop :=
  ∃ ts, (∀ rest us, Scans rest us → Scans (text.toList ++ rest) (ts ++ us)) ∧ D ts a

theorem printed_terminated {text : String} {e : Expr} (h : Printed Unary text e) :
    PrintedAlone Statement (text ++ "; ") (some e) := by
  obtain ⟨ts, hts, he⟩ := h
  refine ⟨_, fun rest us hscans => ?_, .expression (derives_expression he)⟩
  have htext : (text ++ "; ").toList ++ rest = text.toList ++ ';' :: ' ' :: rest := by simp
  rw [htext, List.append_assoc]
  exact hts _ _ (delimited_cons (by decide) _) (hscans.blank.bracket rfl fun _ => rfl)

theorem printed_assign {name text : String} {e : Expr} (hname : isName name = true)
    (h : Printed Unary text e) :
    PrintedAlone Statement (name ++ " = " ++ text ++ "; ") (some (assign name e)) := by
  obtain ⟨ts, hts, he⟩ := h
  refine ⟨_, fun rest us hscans => ?_, .assign name (derives_expression he)⟩
  have htext : (name ++ " = " ++ text ++ "; ").toList ++ rest =
      name.toList ++ ' ' :: (['='] ++ ' ' :: (text.toList ++ ';' :: ' ' :: rest)) := by
    simp
  have htokens : .ident name :: .assign :: ts ++ [.semicolon] ++ us =
      [.ident name] ++ ([.assign] ++ (ts ++ .semicolon :: us)) := by
    simp
  rw [htext, htokens]
  have hend : Scans (';' :: ' ' :: rest) (.semicolon :: us) :=
    hscans.blank.bracket rfl fun _ => rfl
  have hvalue := hts _ _ (delimited_cons (by decide) _) hend
  have hassign := spells_assign _ _ (delimited_cons (by decide) _) hvalue.blank
  exact spells_name hname _ _ (delimited_cons (by decide) _) hassign.blank

theorem printed_block {text : String} {es : List Expr} (h : PrintedAlone Statements text es) :
    PrintedAlone Block ("\x7b " ++ text ++ "\x7d") (block es) := by
  obtain ⟨ts, hts, hes⟩ := h
  refine ⟨_, fun rest us hscans => ?_, .braces hes⟩
  have htext : ("\x7b " ++ text ++ "\x7d").toList ++ rest =
      '\x7b' :: ' ' :: (text.toList ++ '\x7d' :: rest) := by
    simp
  have htokens : .leftBrace :: ts ++ [.rightBrace] ++ us = .leftBrace :: (ts ++ .rightBrace :: us) := by
    simp
  rw [htext, htokens]
  have hclose : Scans ('\x7d' :: rest) (.rightBrace :: us) := hscans.bracket rfl fun _ => rfl
  exact (hts _ _ hclose).blank.bracket rfl fun _ => rfl

theorem printed_conditional {text body : String} {e b : Expr} (h : Printed Unary text e)
    (hb : PrintedAlone Block body b) :
    PrintedAlone Statement ("if (" ++ text ++ ") " ++ body) (some (conditional e b)) := by
  obtain ⟨ts, hts, he⟩ := h
  obtain ⟨us, hus, hb⟩ := hb
  refine ⟨_, fun rest vs hscans => ?_, .conditional (derives_expression he) hb⟩
  have htext : ("if (" ++ text ++ ") " ++ body).toList ++ rest =
      ['i', 'f'] ++ ' ' :: '(' :: (text.toList ++ ')' :: ' ' :: (body.toList ++ rest)) := by
    simp
  have htokens : .ifWord :: .leftParen :: ts ++ .rightParen :: us ++ vs =
      [.ifWord] ++ .leftParen :: (ts ++ .rightParen :: (us ++ vs)) := by
    simp
  rw [htext, htokens]
  have hclose := (hus rest vs hscans).blank.bracket (c := ')') rfl fun _ => rfl
  have hcondition := (hts _ _ (delimited_cons (by decide) _) hclose).bracket (c := '(') rfl fun _ => rfl
  exact spells_if _ _ (delimited_cons (by decide) _) hcondition.blank

/-- A blank behind a statement is skipped. -/
theorem PrintedAlone.blank {α : Type} {D : List Token → α → Prop} {text : String} {a : α}
    (h : PrintedAlone D text a) : PrintedAlone D (text ++ " ") a := by
  obtain ⟨ts, hts, ha⟩ := h
  refine ⟨ts, fun rest us hscans => ?_, ha⟩
  have htext : (text ++ " ").toList ++ rest = text.toList ++ ' ' :: rest := by simp
  rw [htext]
  exact hts _ _ hscans.blank

theorem printed_cons {text texts : String} {e : Expr} {es : List Expr}
    (h : PrintedAlone Statement text (some e)) (hs : PrintedAlone Statements texts es) :
    PrintedAlone Statements (text ++ texts) (e :: es) := by
  obtain ⟨ts, hts, he⟩ := h
  obtain ⟨us, hus, hes⟩ := hs
  refine ⟨_, fun rest vs hscans => ?_, .cons he hes⟩
  rw [String.toList_append, List.append_assoc, List.append_assoc]
  exact hts _ _ (hus _ _ hscans)

mutual

theorem printed_statement : (e : Expr) → e.isStatement = true →
    PrintedAlone Statement (e.surface ++ if e.isBraced then " " else "; ") (some e.reread)
  | block ss, h => by
    rw [surface, reread]
    obtain ⟨ts, hts, hb⟩ := (printed_block (printed_statements ss h)).blank
    exact ⟨ts, hts, .block hb⟩
  | conditional c b, h => by
    cases b with
    | block ss =>
      rw [isStatement, Bool.and_eq_true] at h
      rw [surface, surface, reread, reread]
      exact (printed_conditional (printed_value c h.1) (printed_block (printed_statements ss h.2))).blank
    | _ => simp [isStatement] at h
  | assign name v, h => by
    rw [isStatement, Bool.and_eq_true] at h
    rw [surface, reread]
    exact printed_assign h.1 (printed_value v h.2)
  | literal x, h => printed_terminated (printed_value (literal x) h)
  | ident name, h => printed_terminated (printed_value (ident name) h)
  | arith op l r, h => printed_terminated (printed_value (arith op l r) h)
  | call name args, h => printed_terminated (printed_value (call name args) h)
  | cmp op l r, h => printed_terminated (printed_value (cmp op l r) h)
  | or l r, h => printed_terminated (printed_value (or l r) h)
  | and l r, h => printed_terminated (printed_value (and l r) h)

theorem printed_statements : (es : List Expr) → areStatements es = true →
    PrintedAlone Statements (surfaceStatements es) (rereadAll es)
  | [], _ => ⟨[], fun _ _ => id, .nil⟩
  | e :: es, h => by
    rw [areStatements, Bool.and_eq_true] at h
    rw [surfaceStatements, rereadAll]
    exact printed_cons (printed_statement e h.1) (printed_statements es h.2)

end

/-! ### Sources -/

/-- A text that is read as the tokens of a program is read as the program. -/
theorem ofSource_of_scans {source : String} {ts : List Token} {p : Expr}
    (hscans : Scans source.toList (ts ++ [.endOfInput])) (hp : Program ts p) :
    ofSource source = .ok p := by
  obtain ⟨located, hlocated, htokens⟩ := hscans .start
  have hlayout : ∀ t ∈ located, t.token.isLayout = false := by
    intro t ht
    have hmem : t.token ∈ ts ++ [.endOfInput] := htokens ▸ List.mem_map_of_mem ht
    obtain ⟨hes⟩ := hp
    obtain hmem | hmem := List.mem_append.1 hmem
    · have hin := List.all_eq_true.1 hes.all_tokens _ hmem
      revert hin
      cases t.token with
      | comment | newline => nofun
      | _ => exact fun _ => rfl
    · rw [List.mem_singleton.1 hmem]
      rfl
  have hkept : withoutLayout located = located :=
    List.filter_eq_self.2 fun t ht => by rw [hlayout t ht]; rfl
  have hc : (Cursor.ofTokens located).tokens = ts ++ [.endOfInput] := by
    rw [Cursor.ofTokens, Cursor.tokens, hkept, htokens]
  obtain ⟨c, hc⟩ := Parser.program_of_derivation hc hp
  rw [ofSource, scan, hlocated]
  dsimp only
  rw [hc]

/-- What a printed program is read as. -/
theorem ofSource_surface_eq {p : Expr} (h : p.isSurface = true) :
    ofSource p.surface = .ok (block [p.reread]) := by
  cases p with
  | block ss =>
    obtain ⟨ts, hts, hb⟩ := printed_block (printed_statements ss h)
    have hscans := hts [] _ .nil
    rw [List.append_nil] at hscans
    rw [surface, reread]
    have hprogram := Statements.cons (.block hb) .nil
    rw [List.append_nil] at hprogram
    exact ofSource_of_scans hscans (.block hprogram)
  | _ => cases h

/-- **Printing and reading back.**  The text of a program is read as a block around
the program, up to the literals that are not finite; and what is read from any
text is a program. -/
theorem ofSource_surface :
    (∀ p : Expr, p.isSurface = true → ∃ q, ofSource p.surface = .ok q ∧
      (q = block [p] ↔ p.allFinite = true) ∧ q.numEq (block [p]) = p.allFinite) ∧
      ∀ source p, ofSource source = .ok p → p.isSurface = true := by
  refine ⟨fun p hp => ⟨_, ofSource_surface_eq hp, ?_, ?_⟩, fun source p h => isSurface_of_ofSource h⟩
  · rw [block.injEq, List.cons.injEq, reread_eq_iff]
    simp
  · rw [numEq, numEqAll, numEqAll, numEq_reread, Bool.and_true]

/-- A negative literal, a call and a dotted name are read back. -/
theorem ofSource_surface_call :
    ofSource (surface (block [conditional (cmp .lt (literal Single.one.neg) (ident "a.b"))
      (block [assign "x" (call "max" [ident "y", literal Single.zero.neg])])])) =
      .ok (block [block [conditional (cmp .lt (literal Single.one.neg) (ident "a.b"))
        (block [assign "x" (call "max" [ident "y", literal Single.zero.neg])])]]) := by
  obtain ⟨q, hq, hiff, -⟩ := ofSource_surface.1 (block [conditional
    (cmp .lt (literal Single.one.neg) (ident "a.b"))
    (block [assign "x" (call "max" [ident "y", literal Single.zero.neg])])]) (by decide)
  rw [hq, hiff.2 (by decide)]

end Expr
end FieldScript
