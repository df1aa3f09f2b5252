import Mathlib.Data.List.Basic

/-!
# Sequences of calls

A component takes calls `Op` one after the other, answers each with an `R`, and stops for
good at a call that it refuses.  `perform` is the run of a list of calls.  If every call
does to an abstract view of the state what the abstract component does, so does every list
of calls (`perform_view`).
-/

namespace RCore.Lib.Sequences

open Option

variable {S A Op R : Type}

/-- The answers to a list of calls and the state behind them; `none` if a call is refused. -/
def perform (step : S → Op → Option (R × S)) : List Op → S → Option (List R × S)
  | [], s => some ([], s)
  | op :: ops, s => do
      let (r, s) ← step s op
      let (rs, s) ← perform step ops s
      some (r :: rs, s)

variable {step : S → Op → Option (R × S)} {stepA : A → Op → Option (R × A)} {ops : List Op}

theorem perform_cons_none {s : S} {op : Op} (h : step s op = none) :
    perform step (op :: ops) s = none := by
  rw [perform, h]
  rfl

theorem perform_cons_some {s s' : S} {op : Op} {r : R} (h : step s op = some (r, s')) :
    perform step (op :: ops) s = (perform step ops s').map fun p => (r :: p.1, p.2) := by
  rw [perform, h]
  cases hrest : perform step ops s' with
  | none => simp [hrest]
  | some p => simp [hrest]

theorem perform_keeps {Ok : Op → Prop} (Inv : S → S → Prop) (hrefl : ∀ s, Inv s s)
    (htrans : ∀ {s₁ s₂ s₃}, Inv s₁ s₂ → Inv s₂ s₃ → Inv s₁ s₃)
    (hstep : ∀ {s op r s'}, Ok op → step s op = some (r, s') → Inv s s')
    (hops : ∀ op ∈ ops, Ok op) {s s' : S} {rs : List R}
    (h : perform step ops s = some (rs, s')) : Inv s s' := by
  induction ops generalizing s rs with
  | nil =>
    cases h
    exact hrefl _
  | cons op ops ih =>
    rw [List.forall_mem_cons] at hops
    cases hop : step s op with
    | none =>
      rw [perform_cons_none hop] at h
      cases h
    | some p =>
      rw [perform_cons_some hop] at h
      obtain ⟨q, hq, he⟩ := map_eq_some_iff.mp h
      cases he
      exact htrans (hstep hops.1 hop) (ih hops.2 hq)

theorem perform_view {Ok : Op → Prop} (Inv : S → Prop) (view : S → A)
    (hview : ∀ {s op}, Inv s → Ok op → (step s op).map (fun p => (p.1, view p.2)) =
      stepA (view s) op)
    (hinv : ∀ {s op r s'}, Inv s → Ok op → step s op = some (r, s') → Inv s')
    (hops : ∀ op ∈ ops, Ok op) {s : S} (hs : Inv s) :
    (perform step ops s).map (fun p => (p.1, view p.2)) = perform stepA ops (view s) := by
  induction ops generalizing s with
  | nil => rfl
  | cons op ops ih =>
    rw [List.forall_mem_cons] at hops
    have hhead := hview hs hops.1
    cases hop : step s op with
    | none =>
      rw [hop, map_none] at hhead
      rw [perform_cons_none hop, perform_cons_none hhead.symm]
      rfl
    | some p =>
      rw [hop, map_some] at hhead
      rw [perform_cons_some hop, perform_cons_some hhead.symm,
        ← ih hops.2 (hinv hs hops.1 hop), map_map, map_map]
      rfl

end RCore.Lib.Sequences
