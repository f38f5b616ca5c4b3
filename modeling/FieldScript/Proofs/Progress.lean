/-
# The parser makes progress

A position in a row of tokens is the number of tokens in front of a cursor.  From
every position of every row, whatever tokens it has and whatever stands there,
each procedure of the parser ends.  It never goes back, also when it fails, and
when it succeeds it has gone on.  Only a step at the end of the row stays there,
and so may a program, which can be empty, and a row of operators that has come to
its end.

A program stops where no statement can start, at the end of the row or at an end
of input.  A program read from there is empty and stays there.
-/

import FieldScript.Proofs.Descent

namespace FieldScript
namespace Procedure

/-- A procedure as the parser has it, with the bounds that it takes from the
cursor. -/
def parser {α : Type} : Procedure α → Parser α
  | advance => Parser.advance
  | expect t => Parser.expect t
  | program => Parser.program
  | programTail done => do Parser.programTail (← Parser.remaining) done
  | statement => Parser.statement
  | simpleStatement => Parser.simpleStatement
  | conditional => Parser.conditional Parser.statement
  | block => Parser.block Parser.statement
  | statements done => do
    Parser.statements Parser.statement ((← Parser.remaining) + 1) done
  | joined .disjunction => Parser.expression
  | joined level => Parser.leftAssoc level.combine (Parser.operandOver Parser.expression level)
  | chain level lhs => do
    Parser.chain level.combine (Parser.operandOver Parser.expression level)
      (← Parser.remaining) lhs
  | comparison => Parser.operandOver Parser.expression .conjunction
  | unary => Parser.signed Parser.expression
  | primary => Parser.primary Parser.expression
  | arguments => Parser.arguments Parser.expression
  | argumentsTail args => do
    Parser.argumentsTail Parser.expression ((← Parser.remaining) + 1) args

/-- The number of tokens that a procedure has read at least when it succeeds. -/
def least {α : Type} : Procedure α → Nat
  | advance => 0
  | program => 0
  | programTail _ => 0
  | chain _ _ => 0
  | _ => 1

/-- **Every procedure ends,** from every cursor. -/
theorem ends {α : Type} (p : Procedure α) (n : Nat) : Ends p.least n (run · p) p.parser := by
  have hexpression : ∀ n, Ends 1 n (run · expression) Parser.expression :=
    fun n => ends_expression
  have hstatement : ∀ n, Ends 1 n (run · statement) Parser.statement := fun n => ends_statement
  have hoperand := fun level => (ends_operand (hexpression n) level).mono (Nat.le_succ n)
  cases p with
  | advance => exact .call EndsOn.skip
  | expect t => exact .call (EndsOn.expect t)
  | program => exact ends_program
  | programTail done => exact .remaining fun i _ => ends_programTail i (Nat.le_refl _) done
  | statement => exact hstatement n
  | simpleStatement => exact ends_simpleStatement
  | conditional => exact (ends_conditional (hstatement n)).mono (Nat.le_succ n)
  | block => exact (ends_block (hstatement n)).mono (Nat.le_succ n)
  | statements done =>
    exact .remaining fun i hi => ends_statements (hstatement n) (i + 1) hi (Nat.le_refl _) done
  | joined level =>
    cases level with
    | disjunction => exact hexpression n
    | _ => exact ends_joined (hoperand _)
  | chain level lhs =>
    exact .remaining fun i hi => ends_chain (hoperand level) i hi (Nat.le_refl _) lhs
  | comparison => exact hoperand .conjunction
  | unary => exact hoperand .product
  | primary => exact (ends_primary (hexpression n)).mono (Nat.le_succ n)
  | arguments => exact ends_arguments (hexpression n)
  | argumentsTail args =>
    exact .remaining fun i hi => ends_argumentsTail (hexpression n) (i + 1) hi (Nat.le_refl _) args

end Procedure

namespace Parser

theorem program_of_atEnd {c : Cursor} (h : c.atEnd = true) : program c = .ok (.block []) c := by
  have htail : ∀ bound, programTail bound [] c = .ok [] c := by
    intro bound
    cases bound with
    | zero => rfl
    | succ bound =>
      change (if c.atEnd then _ else _ : Parser (List Expr)) c = _
      rw [if_pos h]
      rfl
  change (programTail c.rest.length [] >>= fun es => pure (Expr.block es)) c = _
  rw [bind_of_ok (htail _)]
  rfl

theorem atEnd_of_program {c d : Cursor} {e : Expr} (h : program c = .ok e d) : d.atEnd = true := by
  change (programTail c.rest.length [] >>= fun es => pure (Expr.block es)) c = _ at h
  obtain ⟨es, d', htail, hpure⟩ := bind_eq_ok_iff.1 h
  cases hpure
  obtain ⟨_, _, _, _, _, hend⟩ := sound_programTail (Nat.le_of_eq c.length_rest.symm) htail
  exact hend

end Parser

namespace Cursor

/-- The cursor at a position of a row of tokens. -/
def atPosition (ts : List Located) (k : Nat) (last : Option Span) : Cursor := ⟨ts.drop k, last⟩

variable {ts : List Located} {k : Nat} {last : Option Span}

theorem length_atPosition : (atPosition ts k last).rest.length = ts.length - k := List.length_drop

/-- A cursor in front of the end of what is left stands further on. -/
theorem exists_position (hk : k ≤ ts.length) {d : Cursor}
    (h : d.rest <:+ (atPosition ts k last).rest) :
    ∃ k', k ≤ k' ∧ k' ≤ ts.length ∧ d = atPosition ts k' d.last := by
  have hsuffix : d.rest <:+ ts := h.trans (List.drop_suffix k ts)
  have hlength : d.rest.length ≤ ts.length - k := length_atPosition ▸ h.length_le
  refine ⟨ts.length - d.rest.length, by omega, by omega, ?_⟩
  rw [atPosition, ← List.suffix_iff_eq_drop.1 hsuffix]

theorem atEnd_atPosition :
    (atPosition ts k last).atEnd = true ↔
      ts.length ≤ k ∨ ∃ t, ts[k]? = some t ∧ t.token = .endOfInput := by
  rw [atEnd, peek, atPosition, List.head?_drop]
  cases h : ts[k]? with
  | none => simpa using h
  | some t =>
    have hlt := (List.getElem?_eq_some_iff.1 h).1
    simp [Nat.not_le_of_lt hlt]

end Cursor

namespace Procedure

open FieldScript.Cursor FieldScript.Parser

/-- **No procedure goes back,** also when it fails. -/
theorem stops_atPosition {α : Type} (p : Procedure α) {ts : List Located} {k : Nat}
    (last : Option Span) (hk : k ≤ ts.length) :
    ∃ k' last', k ≤ k' ∧ k' ≤ ts.length ∧
      stateLeft (p.parser (atPosition ts k last)) = atPosition ts k' last' := by
  have hends := p.ends ((atPosition ts k last).rest.length + 1)
  obtain ⟨k', hle, hle', hend⟩ :=
    exists_position hk (hends.reads _ trivial (Nat.lt_succ_self _))
  exact ⟨k', _, hle, hle', hend⟩

/-- **The parser makes progress.**  From every position of every row of tokens,
each procedure ends without bounds as it does with them, at a position that is not
further back, and further on by `least` tokens if it succeeds.  A program that is
read stops at the end or at an end of input, and a second one is empty and does
not move. -/
theorem makesProgress (ts : List Located) (k : Nat) (last : Option Span) (hk : k ≤ ts.length) :
    (∀ (α : Type) (p : Procedure α), ∃ k' last',
      Settles (run · p) (atPosition ts k last)
        (Descent.outcome (p.parser (atPosition ts k last))) ∧
      stateLeft (p.parser (atPosition ts k last)) = atPosition ts k' last' ∧
      k ≤ k' ∧ k' ≤ ts.length ∧
      ∀ a d, p.parser (atPosition ts k last) = .ok a d → k + p.least ≤ k') ∧
    ∀ e d, Parser.program (atPosition ts k last) = .ok e d →
      (∃ k' last', d = atPosition ts k' last' ∧
        (k' = ts.length ∨ ∃ t, ts[k']? = some t ∧ t.token = .endOfInput)) ∧
      Parser.program d = .ok (.block []) d := by
  refine ⟨fun α p => ?_, fun e d hok => ?_⟩
  · have hends := p.ends ((atPosition ts k last).rest.length + 1)
    have hlt := Nat.lt_succ_self (atPosition ts k last).rest.length
    obtain ⟨k', last', hle, hle', hend⟩ := p.stops_atPosition last hk
    refine ⟨k', last', hends.ends _ trivial hlt, hend, hle, hle', fun a d hok => ?_⟩
    have heats := hends.eats _ a d trivial hlt hok
    rw [hok] at hend
    obtain rfl : d = atPosition ts k' last' := hend
    rw [length_atPosition, length_atPosition] at heats
    omega
  · obtain ⟨k', last', -, hle, hend⟩ := Procedure.program.stops_atPosition last hk
    change stateLeft (Parser.program _) = _ at hend
    rw [hok] at hend
    obtain rfl : d = atPosition ts k' last' := hend
    have hatEnd := atEnd_of_program hok
    refine ⟨⟨k', last', rfl, ?_⟩, program_of_atEnd hatEnd⟩
    exact (atEnd_atPosition.1 hatEnd).imp_left (Nat.le_antisymm hle)

/-- A parenthesis that is never closed, and an end of input with more behind it. -/
def strayEnds : List Located :=
  [⟨.leftParen, ⟨1, 1⟩⟩, ⟨.endOfInput, ⟨1, 2⟩⟩, ⟨.semicolon, ⟨1, 3⟩⟩, ⟨.endOfInput, ⟨1, 4⟩⟩]

theorem makesProgress_strayEnds :
    2 ≤ strayEnds.length ∧
      Settles (run · .statement) (atPosition strayEnds 2 none)
        (.ok none, atPosition strayEnds 3 (some ⟨1, 3⟩)) ∧
      (∃ k' last', stateLeft (Parser.statement (atPosition strayEnds 2 none)) =
        atPosition strayEnds k' last' ∧ 2 < k' ∧ k' ≤ 4) ∧
      ∃ d, Parser.program (atPosition strayEnds 2 none) = .ok (.block []) d ∧
        Parser.program d = .ok (.block []) d := by
  have hk : 2 ≤ strayEnds.length := by decide
  obtain ⟨hprocedures, hprogram⟩ := makesProgress strayEnds 2 none hk
  obtain ⟨k', last', hsettles, hend, -, hle, hread⟩ := hprocedures _ .statement
  have hstatement : Parser.statement (atPosition strayEnds 2 none) =
      .ok none (atPosition strayEnds 3 (some ⟨1, 3⟩)) := rfl
  have hok : Parser.program (atPosition strayEnds 2 none) =
      .ok (.block []) (atPosition strayEnds 3 (some ⟨1, 3⟩)) := rfl
  exact ⟨hk, hsettles, ⟨k', last', hend, hread _ _ hstatement, hle⟩, _, hok, (hprogram _ _ hok).2⟩

end Procedure
end FieldScript
