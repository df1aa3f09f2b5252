import Mathlib.Data.Option.Basic

/-!
# Outcomes of computations that may stop

A computation in `Option` returns a value with a property, or it stops and there is a
reason for it.  `Yields` states both; its rules follow the structure of the
computation.
-/

/-! ## Steps of a `do` block -/

namespace RCore

variable {α β : Type} {a : α} {b : β} {o : Option α} {f : α → Option β}

theorem do_some : (some a >>= f) = f a := rfl

theorem do_none : ((none : Option α) >>= f) = none := rfl

theorem do_eq_some_iff : (o >>= f) = some b ↔ ∃ a, o = some a ∧ f a = some b :=
  Option.bind_eq_some_iff

end RCore

/-! ## Results and reasons -/

namespace RCore.Lib.Outcome

variable {α β : Type} {reason reason' : Prop}

/-- The result has the property, and there is none only for the given reason. -/
def Yields (r : Option α) (reason : Prop) (post : α → Prop) : Prop :=
  match r with
  | some a => post a
  | none => reason

variable {r : Option α} {post : α → Prop} {f : α → Option β} {post' : β → Prop}

theorem Yields.of_eq_some (h : Yields r reason post) {a : α} (ha : r = some a) : post a := by
  subst ha
  exact h

theorem Yields.exists (h : Yields r reason post) (hreason : ¬reason) :
    ∃ a, r = some a ∧ post a := by
  cases r with
  | none => exact absurd h hreason
  | some a => exact ⟨a, rfl, h⟩

theorem Yields.mono (h : Yields r reason post) (hreason : reason → reason')
    {weaker : α → Prop} (hpost : ∀ a, r = some a → post a → weaker a) :
    Yields r reason' weaker := by
  cases r with
  | none => exact hreason h
  | some a => exact hpost a rfl h

theorem Yields.bind (h : Yields r reason post)
    (hf : ∀ a, r = some a → post a → Yields (f a) reason post') :
    Yields (r.bind f) reason post' := by
  cases r with
  | none => exact h
  | some a => exact hf a rfl h

end RCore.Lib.Outcome
