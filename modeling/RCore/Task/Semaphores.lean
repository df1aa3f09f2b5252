import RCore.Task.Effects

/-!
# Semaphores

A negative `count` is the number of waiters.  The permits handed out so far are
read off the history of the semaphore.
-/

namespace RCore.Task

open RCore.Lib.History List

namespace SemaphoreEvent

def isUp : SemaphoreEvent → Bool
  | .up _ _ => true
  | .down _ _ => false

/-- The caller of a blocked `down`. -/
def blocked : SemaphoreEvent → Option Nat
  | .down task false => some task
  | _ => none

/-- The thread that an `up` pops from the wait queue. -/
def popped : SemaphoreEvent → Option Nat
  | .up _ woken => woken
  | _ => none

/-- A `down` is granted when it does not block, or when an `up` pops its caller. -/
def grants : SemaphoreEvent → Bool
  | .up _ woken => woken.isSome
  | .down _ granted => granted

end SemaphoreEvent

def ups (history : List SemaphoreEvent) : Nat :=
  history.countP (·.isUp)

def downs (history : List SemaphoreEvent) : Nat :=
  history.countP (!·.isUp)

def grantedDowns (history : List SemaphoreEvent) : Nat :=
  history.countP (·.grants)

/-- Every `up` wakes the longest waiting thread, if there is one. -/
def UpsWakeFirst (history : List SemaphoreEvent) : Prop :=
  Always (fun past event => ∀ task woken, event = .up task woken →
    woken = (waiting SemaphoreEvent.blocked SemaphoreEvent.popped past).head?) history

/-- Every `down` blocks exactly when all permits have been handed out. -/
def DownsTakePermits (resCount : Nat) (history : List SemaphoreEvent) : Prop :=
  Always (fun past event => ∀ task granted, event = .down task granted →
    (granted = true ↔ grantedDowns past < resCount + ups past)) history

section Run

variable {resCount : Nat} {history : List SemaphoreEvent} {value : Semaphore}

/-- What holds of a semaphore while its counter has not wrapped around. -/
structure SemaphoreInv (resCount : Nat) (history : List SemaphoreEvent) (value : Semaphore) :
    Prop where
  count : value.count = resCount + ups history - downs history
  waiters : (value.waitQueue.length : Int) = max 0 (-value.count)
  granted : grantedDowns history + value.waitQueue.length = downs history
  fifo : Fifo SemaphoreEvent.blocked SemaphoreEvent.popped history value.waitQueue
  upsWakeFirst : UpsWakeFirst history
  downsTakePermits : DownsTakePermits resCount history

@[simp] theorem ups_concat (history : List SemaphoreEvent) (event : SemaphoreEvent) :
    ups (history ++ [event]) = ups history + event.isUp.toNat := by
  cases h : event.isUp <;> simp [ups, h]

@[simp] theorem downs_concat (history : List SemaphoreEvent) (event : SemaphoreEvent) :
    downs (history ++ [event]) = downs history + (!event.isUp).toNat := by
  cases h : event.isUp <;> simp [downs, h]

@[simp] theorem grantedDowns_concat (history : List SemaphoreEvent) (event : SemaphoreEvent) :
    grantedDowns (history ++ [event]) = grantedDowns history + event.grants.toNat := by
  cases h : event.grants <;> simp [grantedDowns, h]

theorem semaphoreInv_new (h : resCount < 2 ^ 63) : SemaphoreInv resCount [] (.new resCount) where
  count := by
    rw [Semaphore.new, wrapIsize_eq (by omega) (by omega)]
    simp [ups, downs]
  waiters := by
    rw [Semaphore.new, wrapIsize_eq (by omega) (by omega)]
    simp only [length_nil]
    omega
  granted := rfl
  fifo := fifo_nil
  upsWakeFirst := always_nil
  downsTakePermits := always_nil

namespace SemaphoreInv

variable {count : Int} {waitQueue : List Nat}

/-- The permits left are `count`, if it is not negative. -/
theorem grantedDowns_lt_iff (h : SemaphoreInv resCount history value) :
    grantedDowns history < resCount + ups history ↔ 0 < value.count := by
  have hcount := h.count
  have hwaiters := h.waiters
  have hgranted := h.granted
  omega

/-- What an event has to say of the old state and the new one. -/
theorem next {value' : Semaphore} {event : SemaphoreEvent}
    (h : SemaphoreInv resCount history value)
    (hfifo : Fifo SemaphoreEvent.blocked SemaphoreEvent.popped
      (history ++ [event]) value'.waitQueue)
    (hcount : value'.count = value.count + event.isUp.toNat - (!event.isUp).toNat)
    (hwaiters : (value'.waitQueue.length : Int) = max 0 (-value'.count))
    (hgranted : event.grants.toNat + value'.waitQueue.length =
      value.waitQueue.length + (!event.isUp).toNat)
    (hup : ∀ task woken, event = .up task woken → woken = value.waitQueue.head?)
    (hdown : ∀ task granted, event = .down task granted → (granted = true ↔ 0 < value.count)) :
    SemaphoreInv resCount (history ++ [event]) value' := by
  have hcount₀ := h.count
  have hgranted₀ := h.granted
  refine ⟨?_, hwaiters, ?_, hfifo, always_concat.mpr ⟨h.upsWakeFirst, ?_⟩,
    always_concat.mpr ⟨h.downsTakePermits, ?_⟩⟩
  · rw [ups_concat, downs_concat]
    omega
  · rw [grantedDowns_concat, downs_concat]
    omega
  · rwa [h.fifo.waiting_eq]
  · rwa [h.grantedDowns_lt_iff]

/-- An `up` that finds a waiter. -/
theorem wake {waiter : Nat} (h : SemaphoreInv resCount history ⟨count, waiter :: waitQueue⟩)
    (hbound : resCount + ups history + downs history + 1 < 2 ^ 63) (task : Nat) :
    SemaphoreInv resCount (history ++ [.up task (some waiter)])
      ⟨wrapIsize (count + 1), waitQueue⟩ := by
  have hcount : count = resCount + ups history - downs history := h.count
  have hwaiters := h.waiters
  simp only [length_cons] at hwaiters
  rw [wrapIsize_eq (by omega) (by omega)]
  refine h.next (h.fifo.pop rfl rfl) (by simp [SemaphoreEvent.isUp]) (by simp only; omega)
    (Nat.add_comm 1 _) ?_ ?_
  · rintro _ _ ⟨⟩
    rfl
  · rintro _ _ ⟨⟩

section

variable (h : SemaphoreInv resCount history ⟨count, waitQueue⟩)
  (hbound : resCount + ups history + downs history + 1 < 2 ^ 63) (task : Nat)
include h hbound task

/-- An `up` that wakes no thread finds none. -/
theorem up (hnone : wrapIsize (count + 1) ≤ 0 → waitQueue = []) :
    SemaphoreInv resCount (history ++ [.up task none]) ⟨wrapIsize (count + 1), waitQueue⟩ := by
  have hcount : count = resCount + ups history - downs history := h.count
  have hwaiters := h.waiters
  simp only at hwaiters
  rw [wrapIsize_eq (by omega) (by omega)] at hnone ⊢
  have hempty : waitQueue = [] := by
    by_cases hle : count + 1 ≤ 0
    · exact hnone hle
    · exact length_eq_zero_iff.mp (by omega)
  subst hempty
  simp only [length_nil] at hwaiters
  refine h.next (h.fifo.skip rfl rfl) (by simp [SemaphoreEvent.isUp])
    (by simp only [length_nil]; omega) rfl ?_ ?_
  · rintro _ _ ⟨⟩
    rfl
  · rintro _ _ ⟨⟩

theorem grant (hpermit : 0 ≤ wrapIsize (count - 1)) :
    SemaphoreInv resCount (history ++ [.down task true])
      ⟨wrapIsize (count - 1), waitQueue⟩ := by
  have hcount : count = resCount + ups history - downs history := h.count
  have hwaiters := h.waiters
  simp only at hwaiters
  rw [wrapIsize_eq (by omega) (by omega)] at hpermit ⊢
  refine h.next (h.fifo.skip rfl rfl) (by simp [SemaphoreEvent.isUp]) (by simp only; omega)
    (Nat.add_comm 1 _) ?_ ?_
  · rintro _ _ ⟨⟩
  · rintro _ _ ⟨⟩
    exact iff_of_true rfl (by simp only; omega)

theorem block (hpermit : wrapIsize (count - 1) < 0) :
    SemaphoreInv resCount (history ++ [.down task false])
      ⟨wrapIsize (count - 1), waitQueue ++ [task]⟩ := by
  have hcount : count = resCount + ups history - downs history := h.count
  have hwaiters := h.waiters
  simp only at hwaiters
  rw [wrapIsize_eq (by omega) (by omega)] at hpermit ⊢
  have hlength : (waitQueue ++ [task]).length = waitQueue.length + 1 := length_append
  refine h.next (h.fifo.push rfl rfl) (by simp [SemaphoreEvent.isUp])
    (by simp only [hlength]; omega) (by simp [SemaphoreEvent.grants, SemaphoreEvent.isUp]) ?_ ?_
  · rintro _ _ ⟨⟩
  · rintro _ _ ⟨⟩
    exact iff_of_false Bool.false_ne_true (by simp only; omega)

end

end SemaphoreInv

theorem semaphoreInv_of_run (h : Run (· = Semaphore.new resCount) Semaphore.Does history value)
    (hbound : resCount + ups history + downs history < 2 ^ 63) :
    SemaphoreInv resCount history value := by
  induction h with
  | start h => exact h ▸ semaphoreInv_new (by omega)
  | step h hdoes ih =>
    cases hdoes with
    | wake task waiter waitQueue hcount =>
      simp [SemaphoreEvent.isUp] at hbound
      exact (ih (by omega)).wake (by omega) task
    | up task waitQueue hnone =>
      simp [SemaphoreEvent.isUp] at hbound
      exact (ih (by omega)).up (by omega) task hnone
    | grant task waitQueue hcount =>
      simp [SemaphoreEvent.isUp] at hbound
      exact (ih (by omega)).grant (by omega) task hcount
    | block task waitQueue hcount =>
      simp [SemaphoreEvent.isUp] at hbound
      exact (ih (by omega)).block (by omega) task hcount

end Run

namespace Kernel

variable {σ₀ σ₁ σ : Kernel} {trace : List SyncEvent} {resCount id : Nat}

/-- From the creation of a semaphore on, as long as the permits and calls are fewer
than `2 ^ 63`: the waiters are counted by the negative `count`, the granted calls
of `down` are as many as calls and permits allow, a thread blocks and waits only
when no permit is left, and blocked threads are woken in their order, one by every
`up`. -/
theorem semaphore_counts_permits
    (hcreate : σ₀.sysSemaphoreCreate resCount = some (σ₁, id)) (h : Run (· = σ₁) Emits trace σ)
    {history : List SemaphoreEvent}
    (hhistory : history = semaphoreHistory σ₀.semaphores.length trace)
    (hbound : resCount + ups history + downs history < 2 ^ 63) :
    ∃ value, σ.semaphores[σ₀.semaphores.length]? = some value ∧
      (value.waitQueue.length : Int) = max 0 (-value.count) ∧
      grantedDowns history = min (downs history) (resCount + ups history) ∧
      (value.waitQueue ≠ [] → grantedDowns history = resCount + ups history) ∧
      DownsTakePermits resCount history ∧
      history.filterMap SemaphoreEvent.blocked =
        history.filterMap SemaphoreEvent.popped ++ value.waitQueue ∧
      UpsWakeFirst history := by
  subst hhistory
  obtain ⟨value, hvalue, hrun⟩ := semaphore_run hcreate h
  have hinv := semaphoreInv_of_run hrun hbound
  have hcount := hinv.count
  have hwaiters := hinv.waiters
  have hgranted := hinv.granted
  refine ⟨value, hvalue, hwaiters, by omega, fun hqueue => ?_, hinv.downsTakePermits, hinv.fifo,
    hinv.upsWakeFirst⟩
  have hpos := List.length_pos_iff.mpr hqueue
  omega

/-- One permit, two calls of `down` by thread 0 and an `up` by thread 1. -/
theorem semaphore_counts_permits_one : ∃ σ₁ σ trace,
    boot.runTasks.sysSemaphoreCreate 1 = some (σ₁, 0) ∧ Run (· = σ₁) Emits trace σ ∧
      semaphoreHistory 0 trace = [.down 0 true, .down 0 false, .up 1 (some 0)] ∧
      ∃ value, σ.semaphores[0]? = some value ∧
        (value.waitQueue.length : Int) = max 0 (-value.count) := by
  obtain ⟨σ₁, hcreate, htrace⟩ : ∃ σ₁, boot.runTasks.sysSemaphoreCreate 1 = some (σ₁, 0) ∧
      (σ₁.performAll syncEvents [.syscall .threadCreate, .syscall (.semaphoreDown 0),
        .syscall (.semaphoreDown 0), .runTasks, .syscall (.semaphoreUp 0)]).map (·.1) =
        some [.semaphore 0 (.down 0 true), .semaphore 0 (.down 0 false),
          .semaphore 0 (.up 1 (some 0))] :=
    ⟨_, rfl, by decide +kernel⟩
  obtain ⟨⟨trace, σ⟩, hperform, rfl⟩ := Option.map_eq_some_iff.mp htrace
  have hstart : Run (· = σ₁) Emits [] σ₁ := .start rfl
  have hrun := run_of_performAll hstart _ hperform
  obtain ⟨value, hvalue, hwaiters, -⟩ :=
    semaphore_counts_permits hcreate hrun rfl (by decide +kernel)
  exact ⟨σ₁, σ, _, hcreate, hrun, rfl, value, hvalue, hwaiters⟩

end Kernel

end RCore.Task
