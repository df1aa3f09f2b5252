import RCore.Task.Effects

/-!
# Mutexes

The ghost owners of a mutex are read off its history.  `MutexBlocking` hands a
mutex over to the first waiter without clearing `locked`, so the new owner may
still be in the ready queue.
-/

namespace RCore.Task

open RCore.Lib.History List

def Mutex.locked : Mutex → Bool
  | spin locked => locked
  | blocking locked _ => locked

namespace MutexEvent

/-- The caller of a blocked `lock`. -/
def blocked : MutexEvent → Option Nat
  | .block task => some task
  | _ => none

/-- The thread that an `unlock` pops from the wait queue. -/
def granted : MutexEvent → Option Nat
  | .unlock _ woken => woken
  | _ => none

end MutexEvent

/-- A thread owns the mutex from the return of its `lock`, or from the `unlock` that
pops it, to its own `unlock`. -/
def nextOwners (owners : List Nat) : MutexEvent → List Nat
  | .acquire task => owners ++ [task]
  | .block _ => owners
  | .unlock task woken => owners.erase task ++ woken.toList

def owners (history : List MutexEvent) : List Nat :=
  history.foldl nextOwners []

/-- A thread calls `unlock` only while it owns the mutex. -/
def OwnersUnlock (history : List MutexEvent) : Prop :=
  Always (fun past event => ∀ task woken, event = .unlock task woken → task ∈ owners past) history

/-- Every `unlock` wakes the longest waiting thread, if there is one. -/
def WakesFirst (history : List MutexEvent) : Prop :=
  Always (fun past event => ∀ task woken, event = .unlock task woken →
    woken = (waiting MutexEvent.blocked MutexEvent.granted past).head?) history

@[simp] theorem owners_concat (history : List MutexEvent) (event : MutexEvent) :
    owners (history ++ [event]) = nextOwners (owners history) event := by
  simp [owners]

variable {history : List MutexEvent} {value : Mutex}

theorem mutex_fifo (h : Run Mutex.IsNew Mutex.Does history value) :
    Fifo MutexEvent.blocked MutexEvent.granted history value.waitQueue := by
  induction h with
  | start h => rcases h with rfl | rfl <;> exact fifo_nil
  | step h hdoes ih =>
    cases hdoes with
    | acquireSpin task => exact ih.skip rfl rfl
    | acquire task waitQueue => exact ih.skip rfl rfl
    | block task waitQueue => exact ih.push rfl rfl
    | unlockSpin task locked => exact ih.skip rfl rfl
    | unlock task => exact ih.skip rfl rfl
    | handOver task wakingTask waitQueue => exact ih.pop rfl rfl

theorem mutex_wakesFirst (h : Run Mutex.IsNew Mutex.Does history value) :
    WakesFirst history := by
  induction h with
  | start h => exact always_nil
  | step h hdoes ih =>
    have hwaiting := (mutex_fifo h).waiting_eq
    cases hdoes
    all_goals refine always_concat.mpr ⟨ih, fun _ _ heq => ?_⟩
    -- of the six transitions three are an `unlock`
    all_goals cases heq
    all_goals
      rw [hwaiting]
      rfl

theorem waitQueue_eq_nil (h : Run Mutex.IsNew Mutex.Does history value)
    (hlocked : value.locked = false) : value.waitQueue = [] := by
  induction h with
  | start h => rcases h with rfl | rfl <;> rfl
  | step h hdoes ih =>
    cases hdoes with
    | unlockSpin task locked => rfl
    | unlock task => rfl
    | acquireSpin task => simp [Mutex.locked] at hlocked
    | acquire task waitQueue => simp [Mutex.locked] at hlocked
    | block task waitQueue => simp [Mutex.locked] at hlocked
    | handOver task wakingTask waitQueue => simp [Mutex.locked] at hlocked

theorem length_nextOwners_unlock {owners : List Nat} {task : Nat} (h : task ∈ owners)
    (woken : Option Nat) :
    (nextOwners owners (.unlock task woken)).length = owners.length - 1 + woken.toList.length := by
  rw [nextOwners, length_append, length_erase_of_mem h]

theorem length_owners (h : Run Mutex.IsNew Mutex.Does history value)
    (hunlock : OwnersUnlock history) : (owners history).length = value.locked.toNat := by
  induction h with
  | start h => rcases h with rfl | rfl <;> rfl
  | step h hdoes ih =>
    cases hdoes with
    | acquireSpin task =>
      have hlen := ih (always_concat.mp hunlock).1
      rw [owners_concat, nextOwners, length_append, hlen]
      rfl
    | acquire task waitQueue =>
      have hlen := ih (always_concat.mp hunlock).1
      rw [owners_concat, nextOwners, length_append, hlen]
      rfl
    | block task waitQueue =>
      have hlen := ih (always_concat.mp hunlock).1
      rw [owners_concat, nextOwners, hlen]
      rfl
    | unlockSpin task locked =>
      obtain ⟨hpast, hmem⟩ := always_concat.mp hunlock
      rw [owners_concat, length_nextOwners_unlock (hmem task none rfl), ih hpast]
      cases locked <;> rfl
    | unlock task =>
      obtain ⟨hpast, hmem⟩ := always_concat.mp hunlock
      rw [owners_concat, length_nextOwners_unlock (hmem task none rfl), ih hpast]
      rfl
    | handOver task wakingTask waitQueue =>
      obtain ⟨hpast, hmem⟩ := always_concat.mp hunlock
      rw [owners_concat, length_nextOwners_unlock (hmem task _ rfl), ih hpast]
      rfl

namespace Kernel

variable {σ : Kernel} {trace : List SyncEvent} {mutex : Nat}

/-- `unlock` of a locked mutex passes its assertion. -/
theorem exists_unlock (hvalue : σ.mutexes[mutex]? = some value) (hlocked : value.locked = true) :
    ∃ σ', σ.unlock mutex = some σ' := by
  rw [unlock, hvalue]
  cases value with
  | spin locked => exact ⟨_, rfl⟩
  | blocking locked waitQueue =>
    obtain rfl : locked = true := hlocked
    cases waitQueue with
    | nil => exact ⟨_, rfl⟩
    | cons task waitQueue => exact ⟨_, rfl⟩

/-- In every run in which only owners unlock the mutex: there is at most one owner,
`locked` tells whether there is one, waiters wait for a locked mutex and get it in
the order in which they blocked, every `unlock` wakes the first of them, and
`unlock` by the owner does not panic. -/
theorem mutex_has_one_owner (h : Traced trace σ) (hvalue : σ.mutexes[mutex]? = some value)
    (hunlock : OwnersUnlock (mutexHistory mutex trace)) :
    (owners (mutexHistory mutex trace)).length ≤ 1 ∧
      (value.locked = true ↔ ∃ task, task ∈ owners (mutexHistory mutex trace)) ∧
      (value.waitQueue ≠ [] → value.locked = true) ∧
      (mutexHistory mutex trace).filterMap MutexEvent.blocked =
        (mutexHistory mutex trace).filterMap MutexEvent.granted ++ value.waitQueue ∧
      WakesFirst (mutexHistory mutex trace) ∧
      ∀ task ∈ owners (mutexHistory mutex trace), ∃ σ', σ.unlock mutex = some σ' := by
  have hrun := h.mutex_run hvalue
  have hlen := length_owners hrun hunlock
  have hlocked : value.locked = true ↔ ∃ task, task ∈ owners (mutexHistory mutex trace) := by
    rw [← List.length_pos_iff_exists_mem, hlen]
    cases value.locked <;> simp
  refine ⟨?_, hlocked, ?_, mutex_fifo hrun, mutex_wakesFirst hrun, ?_⟩
  · rw [hlen]
    exact Bool.toNat_le _
  · intro hqueue
    by_contra hfree
    exact hqueue (waitQueue_eq_nil hrun (by simpa using hfree))
  · intro task htask
    exact exists_unlock hvalue (hlocked.mpr ⟨task, htask⟩)

/-- Thread 1 blocks on a mutex of thread 0, which then hands it over. -/
theorem mutex_has_one_owner_handOver : ∃ trace σ, Traced trace σ ∧
    OwnersUnlock (mutexHistory 0 trace) ∧ owners (mutexHistory 0 trace) = [1] ∧
      (owners (mutexHistory 0 trace)).length ≤ 1 := by
  have hrun : Traced [.mutex 0 (.acquire 0), .mutex 0 (.block 1), .mutex 0 (.unlock 0 (some 1))]
      _ :=
    traced_of_performAll [.runTasks, .syscall (.mutexCreate true), .syscall (.mutexLock 0),
      .syscall .threadCreate, .syscall .yield, .runTasks, .syscall (.mutexLock 0), .runTasks,
      .syscall (.mutexUnlock 0)] rfl
  have hunlock : OwnersUnlock (([] ++ [.acquire 0]) ++ [.block 1] ++ [.unlock 0 (some 1)]) := by
    refine always_concat.mpr ⟨always_concat.mpr ⟨always_concat.mpr ⟨always_nil, ?_⟩, ?_⟩, ?_⟩
    all_goals
      intro task woken heq
      cases heq
    decide
  exact ⟨_, _, hrun, hunlock, rfl, And.left (mutex_has_one_owner hrun rfl hunlock)⟩

end Kernel

end RCore.Task
