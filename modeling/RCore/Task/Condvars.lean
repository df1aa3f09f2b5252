import RCore.Task.Mutexes

/-!
# Condition variables

`wait` releases the mutex and enters the wait queue in one step, so no signal can
fall between the two.  It returns through `lock` of the mutex.
-/

namespace RCore.Task

open RCore.Lib.History List

namespace CondvarEvent

def waited : CondvarEvent → Option Nat
  | .wait task _ => some task
  | _ => none

/-- The thread that a `signal` pops from the wait queue. -/
def signalled : CondvarEvent → Option Nat
  | .signal _ woken => woken
  | _ => none

end CondvarEvent

/-- Every `signal` wakes the longest waiting thread, if there is one. -/
def SignalsFirst (history : List CondvarEvent) : Prop :=
  Always (fun past event => ∀ task woken, event = .signal task woken →
    woken = (waiting CondvarEvent.waited CondvarEvent.signalled past).head?) history

section Run

variable {history : List CondvarEvent} {value : Condvar}

theorem condvar_fifo (h : Run (· = Condvar.new) Condvar.Does history value) :
    Fifo CondvarEvent.waited CondvarEvent.signalled history value.waitQueue := by
  induction h with
  | start h => exact h ▸ fifo_nil
  | step h hdoes ih =>
    cases hdoes with
    | wait task mutex waitQueue => exact ih.push rfl rfl
    | wake task waiter waitQueue => exact ih.pop rfl rfl
    | signal task => exact ih.skip rfl rfl

theorem condvar_signalsFirst (h : Run (· = Condvar.new) Condvar.Does history value) :
    SignalsFirst history := by
  induction h with
  | start h => exact always_nil
  | step h hdoes ih =>
    have hwaiting := (condvar_fifo h).waiting_eq
    cases hdoes
    all_goals refine always_concat.mpr ⟨ih, fun _ _ heq => ?_⟩
    all_goals cases heq
    all_goals
      rw [hwaiting]
      rfl

end Run

namespace Kernel

variable {σ σ' : Kernel} {trace es : List SyncEvent} {task mutex condvar : Nat}

/-! ## Releasing and waiting is one step -/

/-- The event before a `wait` is the `unlock` of its mutex. -/
def WaitsAfterUnlock (trace : List SyncEvent) : Prop :=
  Always (fun past event => ∀ condvar task mutex, event = .condvar condvar (.wait task mutex) →
    ∃ earlier woken, past = earlier ++ [.mutex mutex (.unlock task woken)]) trace

theorem Traced.waitsAfterUnlock (h : Traced trace σ) : WaitsAfterUnlock trace := by
  induction h with
  | start h => exact always_nil
  | @step trace es σ σ' h hstep ih =>
    cases hstep.effect.1 with
    | quiet | newMutex | newSemaphore | newCondvar => rwa [append_nil]
    | mutex | semaphore | signal =>
      refine always_concat.mpr ⟨ih, fun _ _ _ heq => ?_⟩
      cases heq
    | @wait task condvar mutex woken =>
      rw [append_cons]
      refine always_concat.mpr ⟨always_concat.mpr ⟨ih, fun _ _ _ heq => ?_⟩, ?_⟩
      · cases heq
      · intro condvar' task' mutex' heq
        cases heq
        exact ⟨trace, woken, rfl⟩

/-! ## `wait` returns to an owner -/

/-- The thread has waited with the mutex and has not unlocked it since. -/
def Waited (task mutex : Nat) (trace : List SyncEvent) : Prop :=
  ∃ past condvar future, trace = past ++ .condvar condvar (.wait task mutex) :: future ∧
    ∀ woken, .mutex mutex (.unlock task woken) ∉ future

theorem not_waited_nil : ¬Waited task mutex [] := by
  rintro ⟨past, condvar, future, heq, -⟩
  simp at heq

theorem waited_append (h : Waited task mutex (trace ++ es)) :
    (∃ condvar, .condvar condvar (.wait task mutex) ∈ es) ∨
      Waited task mutex trace ∧ ∀ woken, .mutex mutex (.unlock task woken) ∉ es := by
  obtain ⟨past, condvar, future, heq, hfuture⟩ := h
  rcases append_eq_append_iff.mp heq with ⟨rest, rfl, hes⟩ | ⟨rest, htrace, hrest⟩
  · exact .inl ⟨condvar, by simp [hes]⟩
  · cases rest with
    | nil => exact .inl ⟨condvar, by rw [← nil_append es, ← hrest]; simp⟩
    | cons event rest =>
      obtain ⟨rfl, rfl⟩ := List.cons.inj hrest
      refine .inr ⟨⟨past, condvar, rest, htrace, fun woken hmem => ?_⟩, fun woken hmem => ?_⟩
      · exact hfuture woken (mem_append_left _ hmem)
      · exact hfuture woken (mem_append_right _ hmem)

theorem mem_nextOwners {owners : List Nat} (h : task ∈ owners) (event : MutexEvent)
    (hevent : ∀ woken, event ≠ .unlock task woken) : task ∈ nextOwners owners event := by
  cases event with
  | acquire other => exact mem_append_left _ h
  | block other => exact h
  | unlock other woken =>
    have hne : task ≠ other := fun heq => hevent woken (heq ▸ rfl)
    exact mem_append_left _ ((mem_erase_of_ne hne).mpr h)

theorem mem_owners_append (h : task ∈ owners (mutexHistory mutex trace))
    (hes : ∀ woken, .mutex mutex (.unlock task woken) ∉ es) :
    task ∈ owners (mutexHistory mutex (trace ++ es)) := by
  induction es generalizing trace with
  | nil => rwa [append_nil]
  | cons event es ih =>
    rw [append_cons]
    refine ih ?_ fun woken hmem => hes woken (mem_cons_of_mem _ hmem)
    cases event with
    | semaphore | condvar => simpa using h
    | mutex mutex' event =>
      by_cases heq : mutex' = mutex
      · subst heq
        have howner := mem_nextOwners h event
          fun woken heq => hes woken (heq ▸ mem_cons_self)
        simpa using howner
      · simpa [heq] using h

/-- The thread waits for the mutex or will try to lock it. -/
def Relocks (σ : Kernel) (task mutex : Nat) : Prop :=
  σ.resumeOf task = some (.lock mutex) ∨
    ∃ value, σ.mutexes[mutex]? = some value ∧ task ∈ value.waitQueue

/-- A pass of `lock` makes the thread an owner, or it goes on relocking. -/
theorem relocks_lock {inner : TaskControlBlock} (hcur : σ.current = some task)
    (hinner : σ.tasks[task]? = some inner) (h : σ.lock mutex = some σ') :
    .mutex mutex (.acquire task) ∈ σ'.lockEvents task mutex ∨ Relocks σ' task mutex := by
  simp only [lock, hcur, do_some, do_eq_some_iff] at h
  obtain ⟨old, hold, h⟩ := h
  have hlt := (List.getElem?_eq_some_iff.mp hold).1
  split at h
  · simp only [suspendCurrentAndRunNext, hcur, do_some, Option.some.injEq] at h
    subst h
    exact .inr (.inl (by simp [resumeOf, addTask, updateTask, hinner]))
  · cases h
    exact .inl (by simp [lockEvents, updateTask, setMutex, hcur])
  · next waitQueue =>
    simp only [blockCurrentAndRunNext, setMutex, hcur, do_some, Option.some.injEq] at h
    subst h
    refine .inr (.inr ⟨.blocking true (waitQueue ++ [task]), ?_, ?_⟩)
    · simp [updateTask, hlt]
    · simp [Mutex.waitQueue]
  · cases h
    exact .inl (by simp [lockEvents, updateTask, setMutex, hcur])

theorem mem_waitQueue_or_owner {value : Mutex} (heffect : Effect σ σ' es)
    (hvalue : σ.mutexes[mutex]? = some value) (hmem : task ∈ value.waitQueue) :
    (∃ value', σ'.mutexes[mutex]? = some value' ∧ task ∈ value'.waitQueue) ∨
      task ∈ owners (mutexHistory mutex (trace ++ es)) := by
  have hproj := heffect.mutex_projects mutex
  rw [hvalue] at hproj
  cases hvalue' : σ'.mutexes[mutex]? with
  | none => simp [hvalue', Projects] at hproj
  | some value' =>
    rw [hvalue'] at hproj
    simp only [Projects] at hproj
    rcases hproj with ⟨rfl, -⟩ | hdoes
    · exact .inl ⟨_, rfl, hmem⟩
    · rw [mutexHistory_append]
      generalize mutexHistory mutex es = events at hdoes
      cases hdoes with
      | acquireSpin | unlockSpin | unlock => simp [Mutex.waitQueue] at hmem
      | acquire other waitQueue => exact .inl ⟨_, rfl, hmem⟩
      | block other waitQueue => exact .inl ⟨_, rfl, mem_append_left _ hmem⟩
      | handOver other wakingTask waitQueue =>
        rcases mem_cons.mp hmem with rfl | hrest
        · exact .inr (by simp [nextOwners])
        · exact .inl ⟨_, rfl, hrest⟩

theorem Effect.resumeOf_wait (h : Effect σ σ' es)
    (hmem : .condvar condvar (.wait task mutex) ∈ es) :
    σ'.resumeOf task = some (.lock mutex) := by
  cases h with
  | quiet | newMutex | newSemaphore | newCondvar => simp at hmem
  | mutex | semaphore | signal => simp at hmem
  | wait hold hdoes hold' hdoes' hmutexes hsemaphores hcondvars hresume =>
    obtain ⟨rfl, rfl, rfl⟩ : condvar = _ ∧ task = _ ∧ mutex = _ := by simpa using hmem
    exact hresume

theorem AtResume.resumeOf {resume : Resume} (h : σ.AtResume resume)
    (hcur : σ.current = some task) : σ.resumeOf task = some resume := by
  obtain ⟨_, inner, hcur', hinner, hresume⟩ := h.exists_task
  cases hcur.symm.trans hcur'
  rw [Kernel.resumeOf, hinner, Option.map_some, hresume]

/-- A thread inside `lock` that has the processor makes another pass of it. -/
theorem Emits.lock_of_resumeOf (h : Emits σ es σ') (hcur : σ.current = some task)
    (hresume : σ.resumeOf task = some (.lock mutex)) :
    σ.lock mutex = some σ' ∧ es = σ'.lockEvents task mutex := by
  obtain ⟨choice, hchosen, rfl⟩ := h
  cases hchosen with
  | runTasks hidle => simp [hidle] at hcur
  | syscall hat => simp [hat.resumeOf hcur] at hresume
  | timer hat => simp [hat.resumeOf hcur] at hresume
  | pollAgain hat => simp [hat.resumeOf hcur] at hresume
  | pollDone hat => simp [hat.resumeOf hcur] at hresume
  | lock hat h =>
    simp only [hat.resumeOf hcur, Option.some.injEq, Resume.lock.injEq] at hresume
    subst hresume
    exact ⟨h, by simp [syncEvents, hcur]⟩

theorem mem_owners_of_acquire (h : Effect σ σ' es) (hmem : .mutex mutex (.acquire task) ∈ es) :
    task ∈ owners (mutexHistory mutex (trace ++ es)) := by
  cases h with
  | quiet | newMutex | newSemaphore | newCondvar => simp at hmem
  | semaphore | signal | wait => simp at hmem
  | mutex =>
    obtain ⟨rfl, rfl⟩ : mutex = _ ∧ MutexEvent.acquire task = _ := by simpa using hmem
    simp [nextOwners]

/-- A thread whose `wait` has released the mutex owns it again or is on the way. -/
theorem Traced.owner_or_relocks (h : Traced trace σ) (hwaited : Waited task mutex trace) :
    task ∈ owners (mutexHistory mutex trace) ∨ Relocks σ task mutex := by
  induction h with
  | start h => exact absurd hwaited not_waited_nil
  | @step trace es σ σ' h hstep ih =>
    obtain ⟨heffect, hkeeps⟩ := hstep.effect
    rcases waited_append hwaited with ⟨condvar, hwait⟩ | ⟨hbefore, hunlock⟩
    · exact .inr (.inl (heffect.resumeOf_wait hwait))
    · rcases ih hbefore with howner | hresume | ⟨value, hvalue, hmem⟩
      · exact .inl (mem_owners_append howner hunlock)
      · by_cases hcur : σ.current = some task
        · obtain ⟨hlock, rfl⟩ := hstep.lock_of_resumeOf hcur hresume
          obtain ⟨inner, hinner, -⟩ := Option.map_eq_some_iff.mp hresume
          rcases relocks_lock hcur hinner hlock with hacquire | hrelocks
          · exact .inl (mem_owners_of_acquire heffect hacquire)
          · exact .inr hrelocks
        · exact .inr (.inl (hkeeps task _ hcur hresume))
      · rcases mem_waitQueue_or_owner heffect hvalue hmem with hqueue | howner
        · exact .inr (.inr hqueue)
        · exact .inl howner

/-! ## Waiting threads do not run -/

theorem Placed.occurrences_le (h : Placed σ) (task : Nat) : σ.occurrences task ≤ 1 := by
  rw [h task]
  split <;> omega

theorem count_current (hcur : σ.current = some task) : σ.current.toList.count task = 1 := by
  simp [hcur]

theorem Placed.notMem_mutex_waitQueue (h : Placed σ) (hcur : σ.current = some task)
    {value : Mutex} (hvalue : σ.mutexes[mutex]? = some value) : task ∉ value.waitQueue := by
  intro hmem
  have hle := h.occurrences_le task
  rw [occurrences_eq, count_current hcur] at hle
  have hpos : 0 < (σ.mutexes.flatMap Mutex.waitQueue).count task :=
    count_pos_iff.mpr (mem_flatMap.mpr ⟨value, mem_of_getElem? hvalue, hmem⟩)
  omega

theorem Placed.blocked_of_mem_condvar (h : Placed σ) {value : Condvar}
    (hvalue : σ.condvars[condvar]? = some value) (hmem : task ∈ value.waitQueue) :
    σ.current ≠ some task ∧ task ∉ σ.readyQueue := by
  have hle := h.occurrences_le task
  rw [occurrences_eq] at hle
  have hpos : 0 < (σ.condvars.flatMap (·.waitQueue)).count task :=
    count_pos_iff.mpr (mem_flatMap.mpr ⟨value, mem_of_getElem? hvalue, hmem⟩)
  constructor
  · intro hcur
    rw [count_current hcur] at hle
    omega
  · intro hready
    have := count_pos_iff.mpr hready
    omega

/-- In every run: the `wait` calls are answered by the signals in their order, each
by one; a signal wakes the longest waiting thread; releasing the mutex and entering
the queue is one step, and a waiting thread neither runs nor is ready; and a thread
that is back in user mode after a `wait` owns the mutex. -/
theorem condvar_loses_no_wakeup (h : Traced trace σ) {value : Condvar}
    (hvalue : σ.condvars[condvar]? = some value) :
    (condvarHistory condvar trace).filterMap CondvarEvent.waited =
        (condvarHistory condvar trace).filterMap CondvarEvent.signalled ++ value.waitQueue ∧
      SignalsFirst (condvarHistory condvar trace) ∧
      WaitsAfterUnlock trace ∧
      (∀ task ∈ value.waitQueue, σ.current ≠ some task ∧ task ∉ σ.readyQueue) ∧
      ∀ task mutex, Waited task mutex trace → σ.current = some task → σ.AtResume .user →
        task ∈ owners (mutexHistory mutex trace) := by
  have hrun := h.condvar_run hvalue
  have hplaced := h.reachable.placed
  refine ⟨condvar_fifo hrun, condvar_signalsFirst hrun, h.waitsAfterUnlock, ?_, ?_⟩
  · exact fun task hmem => hplaced.blocked_of_mem_condvar hvalue hmem
  · intro task mutex hwaited hcur hat
    rcases h.owner_or_relocks hwaited with howner | hresume | ⟨other, hother, hmem⟩
    · exact howner
    · simp [hat.resumeOf hcur] at hresume
    · exact absurd hmem (hplaced.notMem_mutex_waitQueue hcur hother)

/-- Thread 0 waits, thread 1 signals it and releases the mutex, and thread 0 locks
the mutex again. -/
theorem condvar_loses_no_wakeup_signal : ∃ trace σ, Traced trace σ ∧
    Waited 0 0 trace ∧ σ.current = some 0 ∧ 0 ∈ owners (mutexHistory 0 trace) := by
  obtain ⟨σ, hperform, hvalue, hcur, hat⟩ : ∃ σ, boot.performAll syncEvents [.runTasks,
      .syscall (.mutexCreate true), .syscall .condvarCreate, .syscall .threadCreate,
      .syscall (.mutexLock 0), .syscall (.condvarWait 0 0), .runTasks, .syscall (.mutexLock 0),
      .syscall (.condvarSignal 0), .syscall (.mutexUnlock 0), .syscall .yield, .runTasks, .lock 0] =
        some ([.mutex 0 (.acquire 0), .mutex 0 (.unlock 0 none)] ++ .condvar 0 (.wait 0 0) ::
          [.mutex 0 (.acquire 1), .condvar 0 (.signal 1 (some 0)), .mutex 0 (.unlock 1 none),
            .mutex 0 (.acquire 0)], σ) ∧
      σ.condvars[0]? = some ⟨[]⟩ ∧ σ.current = some 0 ∧ σ.AtResume .user :=
    ⟨_, rfl, rfl, rfl, _, _, rfl, rfl⟩
  have hrun := traced_of_performAll _ hperform
  refine ⟨_, σ, hrun, ⟨_, 0, _, rfl, by simp⟩, hcur, ?_⟩
  exact (condvar_loses_no_wakeup hrun hvalue).2.2.2.2 0 0 ⟨_, 0, _, rfl, by simp⟩ hcur hat

end Kernel

end RCore.Task
