/-
# The period of the generator

A step of the generator is `s ↦ a s + c` on words, where `a` is one more than a
multiple of four and `c` is odd.  Twice as many steps are again of that form:
`2^k` steps are `s ↦ m s + d`, where `m` is one more than a multiple of
`2^(k+2)` and `d` is an odd multiple of `2^k` (`exists_acts_two_pow`).

So `2^k` steps add an odd multiple of `2^k` to a state (`exists_odd_two_pow`):
`2^63` steps flip its highest bit, and `2^64` steps change nothing.  The number
of steps after which a state comes back divides `2^64` and does not divide
`2^63`, which leaves `2^64` itself (`minimalPeriod_next`), and as there are no
more words than that, every word is drawn on the way.
-/

import FieldScript.Machine.Lcg
import Mathlib.Dynamics.PeriodicPts.Lemmas
import Mathlib.Data.Nat.ModEq
import Mathlib.Tactic.Ring

namespace FieldScript
namespace Lcg

open Function

/-- As many steps as `n` take a state `s` to `m s + d`, in words. -/
def Acts (n m d : Nat) : Prop :=
  ∀ g : Lcg, (next^[n] g).state.toNat ≡ m * g.state.toNat + d [MOD 2 ^ 64]

theorem acts_one : Acts 1 multiplier.toNat increment.toNat := by
  intro g
  show (g.state * multiplier + increment).toNat ≡ _ [MOD 2 ^ 64]
  rw [UInt64.toNat_add, UInt64.toNat_mul, Nat.mul_comm]
  exact (Nat.mod_modEq _ _).trans ((Nat.mod_modEq _ _).add_right _)

theorem Acts.trans {n m d n' m' d' : Nat} (h : Acts n m d) (h' : Acts n' m' d') :
    Acts (n' + n) (m' * m) (m' * d + d') := by
  intro g
  rw [iterate_add_apply]
  calc (next^[n'] (next^[n] g)).state.toNat
      ≡ m' * (next^[n] g).state.toNat + d' [MOD 2 ^ 64] := h' _
    _ ≡ m' * (m * g.state.toNat + d) + d' [MOD 2 ^ 64] := ((h g).mul_left m').add_right d'
    _ = m' * m * g.state.toNat + (m' * d + d') := by ring

/-- **Doubling the number of steps.**  Only the residues of the multiplier
modulo four and of the increment modulo two are used. -/
theorem exists_acts_two_pow (k : Nat) :
    ∃ t u, Acts (2 ^ k) (1 + 2 ^ (k + 2) * t) (2 ^ k * (2 * u + 1)) := by
  induction k with
  | zero =>
    refine ⟨multiplier.toNat / 4, increment.toNat / 2, ?_⟩
    have hm : 1 + 2 ^ (0 + 2) * (multiplier.toNat / 4) = multiplier.toNat := by decide
    have hd : 2 ^ 0 * (2 * (increment.toNat / 2) + 1) = increment.toNat := by decide
    rw [hm, hd]
    exact acts_one
  | succ k ih =>
    obtain ⟨t, u, h⟩ := ih
    refine ⟨t + 2 ^ (k + 1) * t * t, u + 2 ^ k * t * (2 * u + 1), ?_⟩
    have hm : (1 + 2 ^ (k + 2) * t) * (1 + 2 ^ (k + 2) * t) =
        1 + 2 ^ (k + 1 + 2) * (t + 2 ^ (k + 1) * t * t) := by ring
    have hd : (1 + 2 ^ (k + 2) * t) * (2 ^ k * (2 * u + 1)) + 2 ^ k * (2 * u + 1) =
        2 ^ (k + 1) * (2 * (u + 2 ^ k * t * (2 * u + 1)) + 1) := by ring
    rw [← hm, ← hd, pow_succ, mul_two]
    exact h.trans h

/-- A power of two of steps adds an odd multiple of that power. -/
theorem exists_odd_two_pow (k : Nat) (g : Lcg) :
    ∃ v, (next^[2 ^ k] g).state.toNat ≡ g.state.toNat + 2 ^ k * (2 * v + 1) [MOD 2 ^ 64] := by
  obtain ⟨t, u, h⟩ := exists_acts_two_pow k
  refine ⟨2 * (t * g.state.toNat) + u, ?_⟩
  have hsum : (1 + 2 ^ (k + 2) * t) * g.state.toNat + 2 ^ k * (2 * u + 1) =
      g.state.toNat + 2 ^ k * (2 * (2 * (t * g.state.toNat) + u) + 1) := by ring
  rw [← hsum]
  exact h g

theorem ext_state {g g' : Lcg} (h : g.state = g'.state) : g = g' := by
  cases g
  cases g'
  exact congrArg Lcg.mk h

-- True by definition, but with `2 ^ 64` for `n` the steps must not be unfolded.
theorem isPeriodicPt_iff {n : Nat} {g : Lcg} : IsPeriodicPt next n g ↔ next^[n] g = g := Iff.rfl

theorem isPeriodicPt_two_pow_64 (g : Lcg) : IsPeriodicPt next (2 ^ 64) g := by
  obtain ⟨v, h⟩ := exists_odd_two_pow 64 g
  have hs := g.state.toNat_lt
  have hs' := (next^[2 ^ 64] g).state.toNat_lt
  unfold Nat.ModEq at h
  rw [isPeriodicPt_iff]
  apply ext_state
  apply UInt64.toNat_inj.1
  omega

/-- Half the period changes the highest bit. -/
theorem not_isPeriodicPt_two_pow_63 (g : Lcg) : ¬IsPeriodicPt next (2 ^ 63) g := by
  rw [isPeriodicPt_iff]
  intro heq
  obtain ⟨v, h⟩ := exists_odd_two_pow 63 g
  rw [heq] at h
  unfold Nat.ModEq at h
  omega

theorem minimalPeriod_next (g : Lcg) : minimalPeriod next g = 2 ^ 64 := by
  have : Fact (Nat.Prime 2) := ⟨Nat.prime_two⟩
  exact minimalPeriod_eq_prime_pow (not_isPeriodicPt_two_pow_63 g) (isPeriodicPt_two_pow_64 g)

/-- The word that the call behind `n` others returns. -/
def word (g : Lcg) (n : Nat) : UInt64 := (next^[n + 1] g).state

theorem word_injOn (g : Lcg) {m n : Nat} (hm : m < 2 ^ 64) (hn : n < 2 ^ 64)
    (h : g.word m = g.word n) : m = n := by
  rw [word, word, iterate_succ_apply, iterate_succ_apply] at h
  rw [← minimalPeriod_next g.next] at hm hn
  exact (iterate_eq_iterate_iff_of_lt_minimalPeriod hm hn).1 (ext_state h)

/-- As many different words as there are words are all of them. -/
theorem exists_word (g : Lcg) (w : UInt64) : ∃ n < 2 ^ 64, g.word n = w := by
  let f : Fin UInt64.size → Fin UInt64.size := fun i => (g.word i).toFin
  have hf : Injective f := by
    intro i j hij
    have hword : g.word i = g.word j := UInt64.toFin_inj.1 hij
    exact Fin.ext (g.word_injOn i.isLt j.isLt hword)
  obtain ⟨i, hi⟩ := Finite.injective_iff_surjective.1 hf w.toFin
  exact ⟨i, i.isLt, UInt64.toFin_inj.1 hi⟩

/-- **The generator has full period.**  From every seed the state comes back
after the multiples of `2^64` calls and after no other number of calls, and
each word is the result of exactly one of the first `2^64` calls. -/
theorem next_fullPeriod (seed : UInt64) :
    (∀ n, next^[n] ⟨seed⟩ = ⟨seed⟩ ↔ 2 ^ 64 ∣ n) ∧
      ∀ w, ∃! n, n < 2 ^ 64 ∧ word ⟨seed⟩ n = w := by
  constructor
  · intro n
    rw [← minimalPeriod_next ⟨seed⟩]
    exact isPeriodicPt_iff_minimalPeriod_dvd
  · intro w
    obtain ⟨n, hn, hw⟩ := exists_word ⟨seed⟩ w
    refine ⟨n, ⟨hn, hw⟩, ?_⟩
    rintro m ⟨hm, hw'⟩
    exact word_injOn ⟨seed⟩ hm hn (hw'.trans hw.symm)

end Lcg
end FieldScript
