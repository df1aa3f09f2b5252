import Mathlib.Logic.Function.Basic
import Mathlib.Data.List.Basic

/-!
# Windows into a ring

A ring of `N` cells is read through a window: `n` cells from `head` on, wrapping
around.  A push writes the cell behind the window, a pop moves its start.
-/

namespace RCore.Lib.RingWindow

open List

variable {α : Type}

/-- The `n` cells from `head` on. -/
def window (f : Nat → α) (N head n : Nat) : List α :=
  (List.range n).map fun i => f ((head + i) % N)

@[simp] theorem length_window (f : Nat → α) (N head n : Nat) : (window f N head n).length = n := by
  simp [window]

theorem window_push (f : Nat → α) {N n : Nat} (head : Nat) (x : α) (hn : n < N) :
    window (Function.update f ((head + n) % N) x) N head (n + 1) = window f N head n ++ [x] := by
  rw [window, range_succ, map_append, map_singleton, Function.update_self, window]
  congr 1
  apply map_congr_left
  intro i hi
  rw [mem_range] at hi
  rw [Function.update_of_ne]
  -- less than one turn apart
  intro he
  have hdiff := Nat.sub_mod_eq_zero_of_mod_eq he.symm
  rw [Nat.add_sub_add_left, Nat.mod_eq_of_lt (by omega)] at hdiff
  omega

theorem window_pop (f : Nat → α) (N head n : Nat) :
    window f N head (n + 1) = f (head % N) :: window f N ((head + 1) % N) n := by
  rw [window, range_succ_eq_map, map_cons, map_map, Nat.add_zero, window]
  congr 1
  apply map_congr_left
  intro i _
  rw [Function.comp_apply, Nat.mod_add_mod]
  congr 2
  omega

end RCore.Lib.RingWindow
