import Mathlib.Data.List.Basic
import Mathlib.Logic.Function.Basic

/-!
# Histories

Transition systems whose steps emit events.  A history is the list of the events
so far.  A component of a system sees its own events only, and its own history is
a run of the component.
-/

namespace RCore.Lib.History

open Function List

section Runs

variable {S C E F : Type}

/-- The states and histories that are reached from a start state. -/
inductive Run (start : S → Prop) (step : S → List E → S → Prop) : List E → S → Prop where
  | start {s : S} (h : start s) : Run start step [] s
  | step {history events : List E} {s s' : S} (h : Run start step history s)
      (hstep : step s events s') : Run start step (history ++ events) s'

variable {startS : S → Prop} {stepS : S → List E → S → Prop} {startC : C → Prop}
  {stepC : C → List F → C → Prop} {pick : E → Option F}

/-- What a step of the system means for a component: nothing, its creation, or one
of its own steps. -/
def Projects (startC : C → Prop) (stepC : C → List F → C → Prop) :
    Option C → List F → Option C → Prop
  | none, events, none => events = []
  | none, events, some c => events = [] ∧ startC c
  | some c, events, some c' => c' = c ∧ events = [] ∨ stepC c events c'
  | some _, _, none => False

section List

variable {components : List C} {j : Nat} {old new : C} {event : F}

theorem projects_refl (c : Option C) : Projects startC stepC c [] c := by
  cases c with
  | none => rfl
  | some c => exact .inl ⟨rfl, rfl⟩

theorem projects_append (h : startC new) (i : Nat) :
    Projects startC stepC components[i]? [] (components ++ [new])[i]? := by
  rcases Nat.lt_trichotomy i components.length with hi | hi | hi
  · rw [getElem?_append_left hi]
    exact projects_refl _
  · subst hi
    simpa [Projects] using h
  · have hnone : (components ++ [new])[i]? = none :=
      getElem?_eq_none (by rw [length_append, length_singleton]; omega)
    rw [hnone, getElem?_eq_none (by omega)]
    rfl

theorem projects_set (hold : components[j]? = some old) (hstep : stepC old [event] new) (i : Nat) :
    Projects startC stepC components[i]? (if j = i then [event] else [])
      (components.set j new)[i]? := by
  by_cases h : j = i
  · subst h
    have hlt := (List.getElem?_eq_some_iff.mp hold).1
    rw [if_pos rfl, hold, List.getElem?_set_self hlt]
    exact .inr hstep
  · rw [if_neg h, getElem?_set_ne h]
    exact projects_refl _

end List

theorem projects_update {I : Type} [DecidableEq I] {view : I → Option C} {j : I} {old new : C}
    {event : F} (hold : view j = some old) (hstep : stepC old [event] new) (i : I) :
    Projects startC stepC (view i) (if j = i then [event] else [])
      (update view j (some new) i) := by
  by_cases h : j = i
  · subst h
    rw [if_pos rfl, hold, update_self]
    exact .inr hstep
  · rw [if_neg h, update_of_ne (Ne.symm h)]
    exact projects_refl _

theorem projects_create {I : Type} [DecidableEq I] {view : I → Option C} {j : I} {new : C}
    (hnone : view j = none) (h : startC new) (i : I) :
    Projects startC stepC (view i) [] (update view j (some new) i) := by
  by_cases hi : j = i
  · subst hi
    rw [hnone, update_self]
    exact ⟨rfl, h⟩
  · rw [update_of_ne (Ne.symm hi)]
    exact projects_refl _

theorem Run.assuming {P : S → Prop}
    (hall : ∀ {history : List E} {s : S}, Run startS stepS history s → P s) {history : List E}
    {s : S} (h : Run startS stepS history s) :
    Run startS (fun s events s' => P s ∧ stepS s events s') history s := by
  induction h with
  | start h => exact .start h
  | step h hs ih => exact .step ih ⟨hall h, hs⟩

theorem Run.projected {start : C → Prop} {history events : List F} {c : C} {o : Option C}
    (h : Run start stepC history c) (hproj : Projects startC stepC (some c) events o) :
    ∃ c', o = some c' ∧ Run start stepC (history ++ events) c' := by
  cases o with
  | none => exact hproj.elim
  | some c' =>
    rcases hproj with ⟨rfl, rfl⟩ | hc
    · exact ⟨c', rfl, by rwa [append_nil]⟩
    · exact ⟨c', rfl, .step h hc⟩

theorem Run.project (view : S → Option C)
    (hstart : ∀ s, startS s → ∀ c, view s = some c → startC c)
    (hstep : ∀ s events s', stepS s events s' →
      Projects startC stepC (view s) (events.filterMap pick) (view s'))
    {history : List E} {s : S} (h : Run startS stepS history s) :
    (view s = none → history.filterMap pick = []) ∧
      ∀ c, view s = some c → Run startC stepC (history.filterMap pick) c := by
  induction h with
  | start h => exact ⟨fun _ => rfl, fun c hc => .start (hstart _ h c hc)⟩
  | @step history events s s' h hs ih =>
    have hproj := hstep _ _ _ hs
    rw [filterMap_append]
    cases hview : view s with
    | none =>
      rw [hview] at hproj
      rw [ih.1 hview]
      cases hview' : view s' with
      | none => exact ⟨fun _ => by rwa [hview'] at hproj, fun c hc => (nomatch hc)⟩
      | some c =>
        rw [hview'] at hproj
        refine ⟨fun h => (nomatch h), fun c' hc' => ?_⟩
        cases hc'
        rw [hproj.1]
        exact .start hproj.2
    | some c =>
      obtain ⟨c', hview', hrun⟩ := (ih.2 c hview).projected (hview ▸ hproj)
      rw [hview']
      exact ⟨fun h => (nomatch h), fun _ hc => Option.some.inj hc ▸ hrun⟩

theorem Run.project_from (view : S → Option C) {c₀ : C}
    (hstart : ∀ s, startS s → view s = some c₀)
    (hstep : ∀ s events s', stepS s events s' →
      Projects startC stepC (view s) (events.filterMap pick) (view s'))
    {history : List E} {s : S} (h : Run startS stepS history s) :
    ∃ c, view s = some c ∧ Run (· = c₀) stepC (history.filterMap pick) c := by
  induction h with
  | start h => exact ⟨c₀, hstart _ h, .start rfl⟩
  | step h hs ih =>
    obtain ⟨c, hview, hrun⟩ := ih
    rw [filterMap_append]
    exact hrun.projected (hview ▸ hstep _ _ _ hs)

end Runs

/-! ## Properties of every event -/

section Always

variable {E : Type} {Q : List E → E → Prop}

/-- Every event stands in the relation `Q` to the events before it. -/
def Always (Q : List E → E → Prop) (history : List E) : Prop :=
  ∀ past event future, history = past ++ event :: future → Q past event

theorem always_nil : Always Q [] := by
  intro past event future h
  simp at h

theorem always_concat {history : List E} {event : E} :
    Always Q (history ++ [event]) ↔ Always Q history ∧ Q history event := by
  refine ⟨fun h => ⟨fun past e future heq => ?_, h history event [] rfl⟩, ?_⟩
  · exact h past e (future ++ [event]) (by simp [heq])
  · rintro ⟨hhistory, hevent⟩ past e future heq
    rcases eq_nil_or_concat future with rfl | ⟨future, last, rfl⟩
    · obtain ⟨rfl, h⟩ := append_inj' heq rfl
      obtain rfl := singleton_inj.mp h
      exact hevent
    · rw [concat_eq_append, ← cons_append, ← append_assoc] at heq
      exact hhistory past e future (append_inj' heq rfl).1

end Always

/-! ## Queues -/

section Fifo

variable {E B : Type} {pushed popped : E → Option B} {history : List E} {queue : List B}
  {event : E} {x : B}

/-- What has been pushed and not popped when pops take the oldest. -/
def waiting (pushed popped : E → Option B) (history : List E) : List B :=
  (history.filterMap pushed).drop (history.filterMap popped).length

/-- The pops so far took the pushed elements in their order, and the queue holds
the others. -/
def Fifo (pushed popped : E → Option B) (history : List E) (queue : List B) : Prop :=
  history.filterMap pushed = history.filterMap popped ++ queue

theorem fifo_nil : Fifo pushed popped [] [] := rfl

theorem Fifo.waiting_eq (h : Fifo pushed popped history queue) :
    waiting pushed popped history = queue := by
  rw [waiting, h, drop_left]

theorem Fifo.push (h : Fifo pushed popped history queue) (hpush : pushed event = some x)
    (hpop : popped event = none) : Fifo pushed popped (history ++ [event]) (queue ++ [x]) := by
  rw [Fifo] at h ⊢
  simp [filterMap_append, h, hpush, hpop]

theorem Fifo.pop (h : Fifo pushed popped history (x :: queue)) (hpush : pushed event = none)
    (hpop : popped event = some x) : Fifo pushed popped (history ++ [event]) queue := by
  rw [Fifo] at h ⊢
  simp [filterMap_append, h, hpush, hpop]

theorem Fifo.skip (h : Fifo pushed popped history queue) (hpush : pushed event = none)
    (hpop : popped event = none) : Fifo pushed popped (history ++ [event]) queue := by
  rw [Fifo] at h ⊢
  simp [filterMap_append, h, hpush, hpop]

end Fifo

end RCore.Lib.History
