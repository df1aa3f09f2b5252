import RCore.Lib.Queues
import RCore.Task.Acts

/-!
# Every thread is in one place

A thread that has not exited is held by exactly one container of the kernel: the
processor, the ready queue, the timer heap or the wait queue of one mutex,
semaphore or condition variable.  Every operation is described by the threads it
takes out of containers and the threads it puts in.
-/

namespace RCore.Task.Kernel

open RCore.Lib.Queues List Option

/-- What holds threads: the processor, the ready queue, the timer heap and every
wait queue. -/
def containers (σ : Kernel) : List (List Nat) :=
  σ.current.toList :: σ.readyQueue :: σ.timers.map (·.task) ::
    (σ.mutexes.map Mutex.waitQueue ++ σ.semaphores.map (·.waitQueue) ++
      σ.condvars.map (·.waitQueue))

/-- The thread is in one container, once, and in no other. -/
def InOnePlace (σ : Kernel) (task : Nat) : Prop :=
  ∃ (i : Nat) (queue : List Nat), σ.containers[i]? = some queue ∧ queue.count task = 1 ∧
    ∀ (j : Nat) (other : List Nat), σ.containers[j]? = some other → j ≠ i → task ∉ other

def occurrences (σ : Kernel) (task : Nat) : Nat :=
  σ.containers.flatten.count task

/-- The thread has been created and has not exited. -/
def live (σ : Kernel) (task : Nat) : Bool :=
  σ.tasks[task]?.any (·.exitCode.isNone)

def Placed (σ : Kernel) : Prop :=
  ∀ task, σ.occurrences task = if σ.live task then 1 else 0

/-- From `σ` to `σ'` the containers lose and gain these threads, and no thread is
created or exits. -/
structure Moved (σ σ' : Kernel) (lost gained : List Nat) : Prop where
  occurrences : ∀ task,
    σ'.occurrences task + lost.count task = σ.occurrences task + gained.count task
  live : ∀ task, σ'.live task = σ.live task

theorem occurrences_eq (σ : Kernel) (task : Nat) :
    σ.occurrences task = σ.current.toList.count task + σ.readyQueue.count task +
      (σ.timers.map (·.task)).count task + (σ.mutexes.flatMap Mutex.waitQueue).count task +
      (σ.semaphores.flatMap (·.waitQueue)).count task +
      (σ.condvars.flatMap (·.waitQueue)).count task := by
  simp only [occurrences, containers, flatten_cons, flatten_append, count_append, flatMap_def]
  omega

namespace Moved

variable {σ σ' σ'' : Kernel} {lost gained lost' gained' : List Nat}

theorem trans (h : Moved σ σ' lost gained) (h' : Moved σ' σ'' lost' gained') :
    Moved σ σ'' (lost ++ lost') (gained ++ gained') where
  occurrences task := by
    have h₁ := h.occurrences task
    have h₂ := h'.occurrences task
    simp only [count_append]
    omega
  live task := (h'.live task).trans (h.live task)

theorem congr (h : Moved σ σ' lost gained)
    (hcount : ∀ task,
      lost.count task + gained'.count task = lost'.count task + gained.count task) :
    Moved σ σ' lost' gained' where
  occurrences task := by
    have h₁ := h.occurrences task
    have h₂ := hcount task
    omega
  live := h.live

theorem placed (h : Moved σ σ' [] []) (hσ : Placed σ) : Placed σ' := by
  intro task
  have hcount := h.occurrences task
  simp only [count_nil, Nat.add_zero] at hcount
  rw [hcount, hσ task, h.live task]

end Moved

/-! ## The single moves -/

theorem moved_wake (σ : Kernel) (tasks : List Nat) :
    Moved σ { σ with readyQueue := σ.readyQueue ++ tasks } [] tasks where
  occurrences other := by
    simp only [occurrences_eq, count_append, count_nil]
    omega
  live _ := rfl

theorem moved_addTimer (σ : Kernel) (expireMs task : Nat) :
    Moved σ (σ.addTimer expireMs task) [] [task] where
  occurrences other := by
    simp only [occurrences_eq, addTimer, map_cons, count_cons, count_nil]
    omega
  live _ := rfl

theorem moved_eraseTimer {σ : Kernel} {timer : TimerCondVar} (h : timer ∈ σ.timers) :
    Moved σ { σ with timers := σ.timers.erase timer } [timer.task] [] where
  occurrences other := by
    have herase := count_map_erase h (·.task) other
    simp only [occurrences_eq, count_cons, count_nil, beq_iff_eq]
    omega
  live _ := rfl

theorem moved_updateTask (σ : Kernel) (task : Nat) {f : TaskControlBlock → TaskControlBlock}
    (hf : ∀ inner, (f inner).exitCode = inner.exitCode) :
    Moved σ (σ.updateTask task f) [] [] where
  occurrences _ := rfl
  live other := by
    simp only [live, updateTask, getElem?_modify]
    cases σ.tasks[other]? with
    | none => rfl
    | some inner => by_cases h : task = other <;> simp [h, hf]

theorem moved_takeCurrent {σ : Kernel} {task : Nat} (h : σ.current = some task) :
    Moved σ { σ with current := none } [task] [] where
  occurrences other := by
    simp only [occurrences_eq, h, toList, count_nil]
    omega
  live _ := rfl

theorem moved_setMutex {σ : Kernel} {mutex : Nat} {old : Mutex}
    (h : σ.mutexes[mutex]? = some old) (new : Mutex) :
    Moved σ (σ.setMutex mutex new) old.waitQueue new.waitQueue where
  occurrences task := by
    have hset := count_flatMap_set h new Mutex.waitQueue task
    simp only [occurrences_eq, setMutex]
    omega
  live _ := rfl

theorem moved_setSemaphore {σ : Kernel} {semaphore : Nat} {old : Semaphore}
    (h : σ.semaphores[semaphore]? = some old) (new : Semaphore) :
    Moved σ (σ.setSemaphore semaphore new) old.waitQueue new.waitQueue where
  occurrences task := by
    have hset := count_flatMap_set h new (·.waitQueue) task
    simp only [occurrences_eq, setSemaphore]
    omega
  live _ := rfl

theorem moved_setCondvar {σ : Kernel} {condvar : Nat} {old : Condvar}
    (h : σ.condvars[condvar]? = some old) (new : Condvar) :
    Moved σ (σ.setCondvar condvar new) old.waitQueue new.waitQueue where
  occurrences task := by
    have hset := count_flatMap_set h new (·.waitQueue) task
    simp only [occurrences_eq, setCondvar]
    omega
  live _ := rfl

theorem moved_of_eq {σ σ' : Kernel} (htasks : σ'.tasks = σ.tasks)
    (hcount : ∀ task, σ'.occurrences task = σ.occurrences task) : Moved σ σ' [] [] where
  occurrences task := by rw [hcount task]
  live task := by rw [live, live, htasks]

/-! ## Steps -/

variable {σ σ' : Kernel} {task : Nat} {queued : Option Resume} {es : List SyncEvent}
  {manages : Bool}

theorem moved_checkTimer {nowMs : Nat} (h : CheckTimer nowMs σ σ') : Moved σ σ' [] [] := by
  induction h with
  | empty hempty => exact moved_of_eq rfl fun _ => rfl
  | stop hpeek hlater => exact moved_of_eq rfl fun _ => rfl
  | @pop _ _ timer hpeek hdue hrest ih =>
    have hpop := (moved_eraseTimer hpeek.1).trans (moved_wake _ [timer.task])
    refine (hpop.trans ih).congr fun other => ?_
    simp

theorem Operates.moved (h : Operates σ task queued es σ') :
    Moved σ σ' [] (queuedTask task queued) := by
  cases h with
  | nothing => exact moved_of_eq rfl fun _ => rfl
  | checkTimer hcheck => exact moved_checkTimer hcheck
  | addTimer expireMs => exact moved_addTimer σ expireMs task
  | newMutex hnew =>
    refine moved_of_eq rfl fun other => ?_
    rcases hnew with rfl | rfl <;> simp [occurrences_eq, updateProcess, Mutex.waitQueue]
  | newSemaphore resCount =>
    refine moved_of_eq rfl fun other => ?_
    simp [occurrences_eq, updateProcess, Semaphore.new]
  | newCondvar =>
    refine moved_of_eq rfl fun other => ?_
    simp [occurrences_eq, updateProcess, Condvar.new]
  | @mutex _ _ new _ _ _ woken hold hdoes hqueue hone hready =>
    subst hready
    refine ((moved_setMutex hold new).trans (moved_wake _ woken.toList)).congr fun other => ?_
    have hcount := congrArg (count other) hqueue
    simp only [count_append, count_nil] at hcount ⊢
    omega
  | @semaphore _ _ new _ _ _ woken hold hdoes hqueue hone hready =>
    subst hready
    refine ((moved_setSemaphore hold new).trans (moved_wake _ woken.toList)).congr fun other => ?_
    have hcount := congrArg (count other) hqueue
    simp only [count_append, count_nil] at hcount ⊢
    omega
  | @signal _ _ new _ woken hold hdoes hqueue hready =>
    subst hready
    refine ((moved_setCondvar hold new).trans (moved_wake _ woken.toList)).congr fun other => ?_
    simp [hqueue, queuedTask, Nat.add_comm]
  | @wait mutex condvar _ new old' _ woken hold hdoes hqueue hold' hready =>
    subst hready
    have hpush := moved_setCondvar (σ := σ.setMutex mutex new) hold' ⟨old'.waitQueue ++ [task]⟩
    refine (((moved_setMutex hold new).trans hpush).trans (moved_wake _ woken.toList)).congr
      fun other => ?_
    simp only [hqueue, queuedTask, toList_some, map_cons, map_nil, count_append, count_nil]
    omega

/-! ## Threads come and go -/

theorem live_append {inner : TaskControlBlock} (htasks : σ'.tasks = σ.tasks ++ [inner])
    (task : Nat) : σ'.live task =
      if task = σ.tasks.length then inner.exitCode.isNone else σ.live task := by
  simp only [live, htasks, getElem?_append]
  rcases Nat.lt_trichotomy task σ.tasks.length with h | h | h
  · rw [if_pos h, if_neg (by omega)]
  · simp [h]
  · have hafter : [inner][task - σ.tasks.length]? = none :=
      getElem?_eq_none (by rw [length_singleton]; omega)
    rw [if_neg (by omega), if_neg (by omega), hafter, getElem?_eq_none (Nat.le_of_lt h)]

theorem Placed.spawn (hσ : Placed σ) {inner : TaskControlBlock}
    (htasks : σ'.tasks = σ.tasks ++ [inner]) (hinner : inner.exitCode = none)
    (hcount : ∀ task,
      σ'.occurrences task = σ.occurrences task + [σ.tasks.length].count task) : Placed σ' := by
  intro task
  rw [hcount task, hσ task, live_append htasks task]
  by_cases h : task = σ.tasks.length
  · have hnew : σ.live σ.tasks.length = false := by simp [live]
    simp [h, hnew, hinner]
  · simp [h, Ne.symm h]

theorem Placed.exit (hσ : Placed σ) {task : Nat} {exitCode : Int}
    {f : TaskControlBlock → TaskControlBlock}
    (htasks : σ'.tasks = σ.tasks.modify task f) (hf : ∀ inner, (f inner).exitCode = some exitCode)
    (hcount : ∀ other, σ'.occurrences other + [task].count other = σ.occurrences other) :
    Placed σ' := by
  intro other
  have hother := hcount other
  have hbefore := hσ other
  by_cases h : task = other
  · subst h
    -- the thread was on the processor and, by the invariant, nowhere else
    have hdead : σ'.live task = false := by
      simp only [live, htasks, getElem?_modify, if_true]
      cases σ.tasks[task]? with
      | none => rfl
      | some inner => simp [hf]
    simp only [count_singleton_self] at hother
    simp only [hdead, Bool.false_eq_true, if_false]
    split at hbefore <;> omega
  · have hlive : σ'.live other = σ.live other := by
      simp [live, htasks, h]
    simp only [count_singleton, beq_iff_eq, h, if_false, Nat.add_zero] at hother
    rw [hother, hlive, hbefore]

theorem Proceeds.placed {σ₁ : Kernel} (h : Proceeds σ₁ task queued manages σ')
    (hcur : σ₁.current = some task) (hmoved : Moved σ σ₁ [] (queuedTask task queued))
    (hσ : Placed σ) : Placed σ' := by
  cases h with
  | stay => exact hmoved.placed hσ
  | goOn =>
    refine (moved_updateTask σ₁ task ?_).placed (hmoved.placed hσ)
    exact fun _ => rfl
  | suspend resume =>
    have htake := moved_takeCurrent hcur
    refine Moved.placed (((htake.trans (moved_updateTask _ task ?_)).trans
      (moved_wake _ [task])).congr fun other => ?_) (hmoved.placed hσ)
    · exact fun _ => rfl
    · simp
  | block resume =>
    refine Moved.placed ((hmoved.trans ((moved_takeCurrent hcur).trans
      (moved_updateTask _ task ?_))).congr fun other => ?_) hσ
    · exact fun _ => rfl
    · simp [queuedTask]
  | exit exitCode processes =>
    refine (hmoved.placed hσ).exit rfl (fun _ => rfl) fun other => ?_
    exact (moved_takeCurrent hcur).occurrences other
  | spawn process tid processes =>
    refine (hmoved.placed hσ).spawn rfl rfl fun other => ?_
    simp only [occurrences_eq, count_append]
    omega
  | reap processes => exact Moved.placed (moved_of_eq rfl fun _ => rfl) (hmoved.placed hσ)

/-! ## Runs -/

theorem moved_runTasks (hidle : σ.current = none) : Moved σ σ.runTasks [] [] := by
  rw [runTasks]
  split
  · exact moved_of_eq rfl fun _ => rfl
  · next task readyQueue hready =>
    have hfetch : Moved σ { σ with readyQueue := readyQueue, current := some task } [] [] :=
      moved_of_eq rfl fun other => by
        simp only [occurrences_eq, hidle, hready, toList, count_cons, count_nil]
        omega
    exact hfetch.trans (moved_updateTask _ task fun _ => rfl)

theorem Step.placed (hstep : Step σ σ') (hσ : Placed σ) : Placed σ' := by
  obtain ⟨choice, hchosen⟩ := hstep.exists_chosen
  by_cases hrun : choice = .runTasks
  · subst hrun
    cases hchosen with
    | runTasks hidle => exact (moved_runTasks hidle).placed hσ
  · obtain ⟨hcur, -, hoperates, hproceeds⟩ := hchosen.acts hrun
    exact hproceeds.placed (hoperates.current.trans hcur) hoperates.moved hσ

theorem placed_boot : Placed boot := by
  intro task
  cases task with
  | zero => rfl
  | succ task => simp [occurrences, containers, boot, live]

theorem Reachable.placed (h : Reachable σ) : Placed σ := by
  induction h with
  | boot => exact placed_boot
  | step _ hstep ih => exact hstep.placed ih

theorem Placed.notMem_of_not_live (h : Placed σ) {task : Nat} (hdead : σ.live task = false) :
    ∀ queue ∈ σ.containers, task ∉ queue := by
  intro queue hqueue hmem
  have hzero := h task
  rw [hdead, if_neg Bool.false_ne_true] at hzero
  exact count_eq_zero.mp hzero (mem_flatten.mpr ⟨queue, hqueue, hmem⟩)

/-- In every reachable state, a thread that has not exited is in exactly one
container, and there once; one that has exited is in none; and the containers hold
nothing else. -/
theorem live_threads_in_one_place (h : Reachable σ) :
    (∀ task inner, σ.tasks[task]? = some inner →
      (inner.exitCode = none → σ.InOnePlace task) ∧
      (inner.exitCode ≠ none → ∀ queue ∈ σ.containers, task ∉ queue)) ∧
    ∀ queue ∈ σ.containers, ∀ task ∈ queue, task < σ.tasks.length := by
  have hplaced := h.placed
  refine ⟨fun task inner hinner => ⟨fun hnone => ?_, fun hexit => ?_⟩, ?_⟩
  · have hone := hplaced task
    simp only [live, hinner, hnone, Option.any_some, Option.isNone_none, if_true] at hone
    exact exists_only_of_count_flatten hone
  · refine hplaced.notMem_of_not_live ?_
    cases hcode : inner.exitCode with
    | none => exact absurd hcode hexit
    | some code => simp [live, hinner, hcode]
  · intro queue hqueue task hmem
    by_contra hge
    refine hplaced.notMem_of_not_live ?_ queue hqueue hmem
    simp [live, List.getElem?_eq_none (Nat.le_of_not_lt hge)]

/-- The second thread of the initial process waits for a mutex that the first one,
which is ready, holds; a third one has exited. -/
theorem live_threads_in_one_place_waiting :
    ∃ σ, Reachable σ ∧ σ.containers = [[], [0], [], [1]] ∧ σ.InOnePlace 0 ∧ σ.InOnePlace 1 ∧
      ∀ queue ∈ σ.containers, 2 ∉ queue := by
  have h := Reachable.boot.step (.runTasks rfl)
  have h := h.step (.syscall .threadCreate ⟨_, _, rfl, rfl⟩ rfl)
  have h := h.step (.syscall .threadCreate ⟨_, _, rfl, rfl⟩ rfl)
  have h := h.step (.syscall (.mutexCreate true) ⟨_, _, rfl, rfl⟩ rfl)
  have h := h.step (.syscall (.mutexLock 0) ⟨_, _, rfl, rfl⟩ rfl)
  have h := h.step (.syscall .yield ⟨_, _, rfl, rfl⟩ rfl)
  have h := h.step (.runTasks rfl)
  have h := h.step (.syscall (.mutexLock 0) ⟨_, _, rfl, rfl⟩ rfl)
  have h := h.step (.runTasks rfl)
  have h := h.step (.syscall (.exit 5) ⟨_, _, rfl, rfl⟩ rfl)
  have hplaces := (live_threads_in_one_place h).1
  exact ⟨_, h, rfl, (hplaces 0 _ rfl).1 rfl, (hplaces 1 _ rfl).1 rfl,
    (hplaces 2 _ rfl).2 (by simp)⟩

end RCore.Task.Kernel
