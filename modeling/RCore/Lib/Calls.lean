/-!
# Programs that make calls

A program is the tree of the calls that it makes, with a branch for each answer.  `Rules`
say in which states a call is allowed and how it can be answered; `wp` holds if the
program makes only allowed calls, whatever the answers, and ends as required.
-/

namespace RCore.Lib.Calls

/-- A program that makes calls `c : C`, answered by an `R c`, and returns an `α`. -/
inductive Prog (C : Type) (R : C → Type) (α : Type) where
  | pure (a : α)
  | call (c : C) (next : R c → Prog C R α)

/-- When a call is allowed, and with which answer and state it can come back. -/
structure Rules (C : Type) (R : C → Type) (S : Type) where
  Allowed : C → S → Prop
  Outcome : (c : C) → S → R c → S → Prop

variable {C : Type} {R : C → Type} {S α β : Type}

variable {post : α → S → Prop}

namespace Prog

def bind : Prog C R α → (α → Prog C R β) → Prog C R β
  | .pure a, f => f a
  | .call c next, f => .call c fun r => (next r).bind f

instance : Monad (Prog C R) where
  pure := Prog.pure
  bind := Prog.bind

/-- A single call. -/
def op (c : C) : Prog C R (R c) := .call c .pure

variable {rules : Rules C R S} {p : Prog C R α} {f : α → Prog C R β} {s : S}

@[simp] theorem pure_bind (a : α) (f : α → Prog C R β) : (Pure.pure a : Prog C R α) >>= f = f a :=
  rfl

@[simp] theorem call_bind (c : C) (next : R c → Prog C R α) (f : α → Prog C R β) :
    (Prog.call c next >>= f : Prog C R β) = .call c fun r => next r >>= f :=
  rfl

@[simp] theorem op_bind (c : C) (f : R c → Prog C R β) :
    (op c >>= f : Prog C R β) = .call c f :=
  rfl

variable (rules) in
/-- Every call is allowed, and the program returns only in states with `post`. -/
def wp : Prog C R α → S → (α → S → Prop) → Prop
  | .pure a, s, post => post a s
  | .call c next, s, post =>
      rules.Allowed c s ∧ ∀ r s', rules.Outcome c s r s' → (next r).wp s' post

theorem wp_pure {a : α} (h : post a s) : (Pure.pure a : Prog C R α).wp rules s post :=
  h

theorem wp_call {c : C} {next : R c → Prog C R α} (hallowed : rules.Allowed c s)
    (h : ∀ r s', rules.Outcome c s r s' → (next r).wp rules s' post) :
    (Prog.call c next).wp rules s post :=
  ⟨hallowed, h⟩

theorem wp_bind {post : β → S → Prop}
    (h : p.wp rules s fun a s' => (f a).wp rules s' post) : (p >>= f).wp rules s post := by
  induction p generalizing s with
  | pure a => exact h
  | call c next ih => exact ⟨h.1, fun r s' hr => ih r (h.2 r s' hr)⟩

theorem wp_mono {post' : α → S → Prop} (h : p.wp rules s post)
    (hpost : ∀ a s', post a s' → post' a s') : p.wp rules s post' := by
  induction p generalizing s with
  | pure a => exact hpost a s h
  | call c next ih => exact ⟨h.1, fun r s' hr => ih r (h.2 r s' hr)⟩

theorem wp_seq {mid : α → S → Prop} {post : β → S → Prop} (h : p.wp rules s mid)
    (hf : ∀ a s', mid a s' → (f a).wp rules s' post) : (p >>= f).wp rules s post :=
  wp_bind (wp_mono h hf)

end Prog

end RCore.Lib.Calls
