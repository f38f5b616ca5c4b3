/-
# Computations with a state

Parsing, editing, compiling and running are computations that have a state and
may fail, and a failed one leaves the state that it had come to.  Here are the
rules for two of them in a row, and for what one leaves.

`Within R x` says that `x`, whether it completes or fails, leaves a state that is
in relation `R` to the one it started from.  If `R` is reflexive and transitive
this passes from the parts of a computation to the whole.
-/

namespace FieldScript

section Rows

variable {ε σ α β : Type} {x : EStateM ε σ α} {f : α → EStateM ε σ β} {s t : σ}

theorem bind_of_ok {a : α} (h : x s = .ok a t) : (x >>= f) s = f a t := by
  show EStateM.bind x f s = f a t
  simp only [EStateM.bind, h]

theorem bind_of_error {e : ε} (h : x s = .error e t) : (x >>= f) s = .error e t := by
  show EStateM.bind x f s = .error e t
  simp only [EStateM.bind, h]

theorem bind_eq_ok_iff {b : β} :
    (x >>= f) s = .ok b t ↔ ∃ a u, x s = .ok a u ∧ f a u = .ok b t := by
  cases h : x s with
  | ok a u => simp [bind_of_ok h, and_assoc]
  | error e u => simp [bind_of_error h]

theorem bind_eq_error_iff {e : ε} :
    (x >>= f) s = .error e t ↔ x s = .error e t ∨ ∃ a u, x s = .ok a u ∧ f a u = .error e t := by
  cases h : x s with
  | ok a u => simp [bind_of_ok h, and_assoc]
  | error e u => simp [bind_of_error h]

end Rows

/-- The state that a computation leaves, also when it fails. -/
def stateLeft {ε σ α : Type} : EStateM.Result ε σ α → σ
  | .ok _ s => s
  | .error _ s => s

/-- Whether it completes or fails, a computation leaves a state that is in
relation `R` to the one it started from. -/
def Within {ε σ α : Type} (R : σ → σ → Prop) (x : EStateM ε σ α) : Prop :=
  ∀ s, R s (stateLeft (x s))

namespace Within

variable {ε σ α β : Type} {R : σ → σ → Prop}

theorem pure [Std.Refl R] (a : α) : Within R (Pure.pure a : EStateM ε σ α) :=
  fun s => Std.Refl.refl s

theorem throw [Std.Refl R] (e : ε) : Within R (MonadExcept.throw e : EStateM ε σ α) :=
  fun s => Std.Refl.refl s

theorem get {f : σ → EStateM ε σ α} (h : ∀ s, Within R (f s)) :
    Within R (MonadState.get >>= f) := fun s => h s s

/-- Two computations in a row; the second one starts from a value that the first
one can return. -/
theorem bind [Trans R R R] {x : EStateM ε σ α} {f : α → EStateM ε σ β} (hx : Within R x)
    (hf : ∀ s a t, x s = .ok a t → Within R (f a)) : Within R (x >>= f) := by
  intro s
  have hs := hx s
  cases h : x s with
  | ok a t =>
    rw [h] at hs
    rw [bind_of_ok h]
    exact Trans.trans hs (hf s a t h t)
  | error e t =>
    rw [h] at hs
    rwa [bind_of_error h]

theorem seq [Trans R R R] {x : EStateM ε σ α} {f : α → EStateM ε σ β} (hx : Within R x)
    (hf : ∀ a, Within R (f a)) : Within R (x >>= f) := hx.bind fun _ a _ _ => hf a

end Within
end FieldScript
