import RCore.Task.Events

/-!
# What a step does

A step of the current thread has two parts: it works on the synchronisation objects, the
timers and the lists of a process, and then it goes on, waits or changes which threads there
are.  Every operation of the kernel is taken apart once, here; what a step does to the places,
the histories and the statuses of the threads is read off the two parts.
-/

namespace RCore.Task

open List Option

variable {resume : Resume} {mutex id : Nat} {call : Syscall}

/-- A mutex of either kind, seen alone. -/
inductive Mutex.Does : Mutex → List MutexEvent → Mutex → Prop where
  | acquireSpin (task : Nat) : Does (.spin false) [.acquire task] (.spin true)
  | acquire (task : Nat) (waitQueue : List Nat) :
      Does (.blocking false waitQueue) [.acquire task] (.blocking true waitQueue)
  | block (task : Nat) (waitQueue : List Nat) :
      Does (.blocking true waitQueue) [.block task] (.blocking true (waitQueue ++ [task]))
  | unlockSpin (task : Nat) (locked : Bool) :
      Does (.spin locked) [.unlock task none] (.spin false)
  | unlock (task : Nat) : Does (.blocking true []) [.unlock task none] (.blocking false [])
  | handOver (task wakingTask : Nat) (waitQueue : List Nat) :
      Does (.blocking true (wakingTask :: waitQueue)) [.unlock task (some wakingTask)]
        (.blocking true waitQueue)

inductive Semaphore.Does : Semaphore → List SemaphoreEvent → Semaphore → Prop where
  | wake {count : Int} (task waiter : Nat) (waitQueue : List Nat)
      (hcount : wrapIsize (count + 1) ≤ 0) :
      Does ⟨count, waiter :: waitQueue⟩ [.up task (some waiter)]
        ⟨wrapIsize (count + 1), waitQueue⟩
  | up {count : Int} (task : Nat) (waitQueue : List Nat)
      (hnone : wrapIsize (count + 1) ≤ 0 → waitQueue = []) :
      Does ⟨count, waitQueue⟩ [.up task none] ⟨wrapIsize (count + 1), waitQueue⟩
  | grant {count : Int} (task : Nat) (waitQueue : List Nat)
      (hcount : 0 ≤ wrapIsize (count - 1)) :
      Does ⟨count, waitQueue⟩ [.down task true] ⟨wrapIsize (count - 1), waitQueue⟩
  | block {count : Int} (task : Nat) (waitQueue : List Nat)
      (hcount : wrapIsize (count - 1) < 0) :
      Does ⟨count, waitQueue⟩ [.down task false] ⟨wrapIsize (count - 1), waitQueue ++ [task]⟩

inductive Condvar.Does : Condvar → List CondvarEvent → Condvar → Prop where
  | wait (task mutex : Nat) (waitQueue : List Nat) :
      Does ⟨waitQueue⟩ [.wait task mutex] ⟨waitQueue ++ [task]⟩
  | wake (task waiter : Nat) (waitQueue : List Nat) :
      Does ⟨waiter :: waitQueue⟩ [.signal task (some waiter)] ⟨waitQueue⟩
  | signal (task : Nat) : Does ⟨[]⟩ [.signal task none] ⟨[]⟩

/-- A mutex as `MutexSpin::new` or `MutexBlocking::new` returns it. -/
def Mutex.IsNew (mutex : Mutex) : Prop :=
  mutex = .spin false ∨ mutex = .blocking false []

/-- The system calls that create, end or wait for threads. -/
def Syscall.managesThreads : Syscall → Bool
  | .exit _ | .fork | .threadCreate | .waittid _ => true
  | _ => false

namespace Kernel

def Choice.managesThreads : Choice → Bool
  | .syscall call => call.managesThreads
  | _ => false

/-- The thread in the queue it has put itself into, if it has. -/
def queuedTask (task : Nat) (queued : Option Resume) : List Nat :=
  queued.toList.map fun _ => task

/-- The current thread `task` works on the objects; `queued` tells that it has put itself into
a queue, and where it goes on when it leaves that.  The thread that is woken goes to the ready
queue. -/
inductive Operates (σ : Kernel) (task : Nat) : Option Resume → List SyncEvent → Kernel → Prop where
  | nothing : Operates σ task none [] σ
  | checkTimer {nowMs : Nat} {σ' : Kernel} (hcheck : CheckTimer nowMs σ σ') :
      Operates σ task none [] σ'
  | addTimer (expireMs : Nat) : Operates σ task (some .user) [] (σ.addTimer expireMs task)
  | newMutex {new : Mutex} (hnew : new.IsNew) (process : Nat) (mutexList : List (Option Nat)) :
      Operates σ task none [] ({ σ with mutexes := σ.mutexes ++ [new] }.updateProcess process
        fun process => { process with mutexList := mutexList })
  | newSemaphore (resCount process : Nat) (semaphoreList : List (Option Nat)) :
      Operates σ task none []
        ({ σ with semaphores := σ.semaphores ++ [Semaphore.new resCount] }.updateProcess process
          fun process => { process with semaphoreList := semaphoreList })
  | newCondvar (process : Nat) (condvarList : List (Option Nat)) :
      Operates σ task none [] ({ σ with condvars := σ.condvars ++ [Condvar.new] }.updateProcess process
        fun process => { process with condvarList := condvarList })
  | mutex {mutex : Nat} {old new : Mutex} {event : MutexEvent} {queued : Option Resume}
      {readyQueue : List Nat} (woken : Option Nat) (hold : σ.mutexes[mutex]? = some old)
      (hdoes : old.Does [event] new)
      (hqueue : old.waitQueue ++ queuedTask task queued = woken.toList ++ new.waitQueue)
      (hone : queued = none ∨ woken = none) (hready : readyQueue = σ.readyQueue ++ woken.toList) :
      Operates σ task queued [.mutex mutex event]
        { σ with mutexes := σ.mutexes.set mutex new, readyQueue := readyQueue }
  | semaphore {semaphore : Nat} {old new : Semaphore} {event : SemaphoreEvent}
      {queued : Option Resume} {readyQueue : List Nat} (woken : Option Nat)
      (hold : σ.semaphores[semaphore]? = some old) (hdoes : old.Does [event] new)
      (hqueue : old.waitQueue ++ queuedTask task queued = woken.toList ++ new.waitQueue)
      (hone : queued = none ∨ woken = none) (hready : readyQueue = σ.readyQueue ++ woken.toList) :
      Operates σ task queued [.semaphore semaphore event]
        { σ with semaphores := σ.semaphores.set semaphore new, readyQueue := readyQueue }
  | signal {condvar : Nat} {old new : Condvar} {readyQueue : List Nat} (woken : Option Nat)
      (hold : σ.condvars[condvar]? = some old) (hdoes : old.Does [.signal task woken] new)
      (hqueue : old.waitQueue = woken.toList ++ new.waitQueue)
      (hready : readyQueue = σ.readyQueue ++ woken.toList) :
      Operates σ task none [.condvar condvar (.signal task woken)]
        { σ with condvars := σ.condvars.set condvar new, readyQueue := readyQueue }
  | wait {mutex condvar : Nat} {old new : Mutex} {old' : Condvar} {readyQueue : List Nat}
      (woken : Option Nat) (hold : σ.mutexes[mutex]? = some old)
      (hdoes : old.Does [.unlock task woken] new)
      (hqueue : old.waitQueue = woken.toList ++ new.waitQueue)
      (hold' : σ.condvars[condvar]? = some old')
      (hready : readyQueue = σ.readyQueue ++ woken.toList) :
      Operates σ task (some (.lock mutex))
        [.mutex mutex (.unlock task woken), .condvar condvar (.wait task mutex)]
        { σ with
          mutexes := σ.mutexes.set mutex new
          condvars := σ.condvars.set condvar ⟨old'.waitQueue ++ [task]⟩
          readyQueue := readyQueue }

/-- The current thread goes on, is suspended, waits in the queue it is in, or exits; or it
creates a thread, or changes its process. -/
inductive Proceeds (σ : Kernel) (task : Nat) : Option Resume → Bool → Kernel → Prop where
  | stay {manages : Bool} : Proceeds σ task none manages σ
  | goOn {manages : Bool} : Proceeds σ task none manages
      (σ.updateTask task fun inner => { inner with resume := .user })
  | suspend {manages : Bool} (resume : Resume) : Proceeds σ task none manages
      (({ σ with current := none }.updateTask task
        fun inner => { inner with taskStatus := .ready, resume := resume }).addTask task)
  | block {manages : Bool} (resume : Resume) : Proceeds σ task (some resume) manages
      ({ σ with current := none }.updateTask task
        fun inner => { inner with taskStatus := .blocking, resume := resume })
  | exit (exitCode : Int) (processes : List Process) : Proceeds σ task none true
      { { σ with current := none }.updateTask task
          (fun inner => { inner with exitCode := some exitCode, res := none }) with
        processes := processes }
  | spawn (process tid : Nat) (processes : List Process) : Proceeds σ task none true
      { σ with
        tasks := σ.tasks ++ [.new process tid]
        processes := processes
        readyQueue := σ.readyQueue ++ [σ.tasks.length] }
  | reap (processes : List Process) : Proceeds σ task none true
      { σ with processes := processes }

/-- A step of the current thread. -/
inductive Acts (σ : Kernel) (es : List SyncEvent) (manages : Bool) (σ' : Kernel) : Prop where
  | mk {task : Nat} {inner : TaskControlBlock} {queued : Option Resume} {σ₁ : Kernel}
      (hcur : σ.current = some task) (hinner : σ.tasks[task]? = some inner)
      (hoperates : Operates σ task queued es σ₁) (hproceeds : Proceeds σ₁ task queued manages σ')

/-! ## The operations -/

variable {σ σ' : Kernel} {task : Nat} {inner : TaskControlBlock} {manages : Bool}

theorem currentTask_eq_some (h : σ.currentTask = some (task, inner)) :
    σ.current = some task ∧ σ.tasks[task]? = some inner := by
  simp only [currentTask, do_eq_some_iff, Option.some.injEq, Prod.mk.injEq] at h
  obtain ⟨_, hcur, _, hinner, rfl, rfl⟩ := h
  exact ⟨hcur, hinner⟩

theorem suspendCurrentAndRunNext_eq_some (h : σ.suspendCurrentAndRunNext resume = some σ')
    (hcur : σ.current = some task) :
    σ' = ({ σ with current := none }.updateTask task
      fun inner => { inner with taskStatus := .ready, resume := resume }).addTask task := by
  simpa [suspendCurrentAndRunNext, hcur] using h.symm

theorem blockCurrentAndRunNext_eq_some (h : σ.blockCurrentAndRunNext resume = some σ')
    (hcur : σ.current = some task) :
    σ' = { σ with current := none }.updateTask task
      fun inner => { inner with taskStatus := .blocking, resume := resume } := by
  simpa [blockCurrentAndRunNext, hcur] using h.symm

theorem woken_eq (woken : Option Nat) (h : σ'.readyQueue = σ.readyQueue ++ woken.toList) :
    σ.woken σ' = woken := by
  cases woken <;> simp [Kernel.woken, h]

/-- `unlock` changes the mutex, and at most appends the woken thread to the ready queue. -/
theorem unlock_eq_some (task : Nat) (h : σ.unlock mutex = some σ') :
    ∃ old new woken readyQueue, σ.mutexes[mutex]? = some old ∧ old.Does [.unlock task woken] new ∧
      old.waitQueue = woken.toList ++ new.waitQueue ∧
      readyQueue = σ.readyQueue ++ woken.toList ∧
      σ' = { σ with mutexes := σ.mutexes.set mutex new, readyQueue := readyQueue } := by
  simp only [unlock, do_eq_some_iff] at h
  obtain ⟨old, hold, h⟩ := h
  split at h
  · next locked =>
    cases h
    exact ⟨_, _, none, _, hold, .unlockSpin task locked, rfl, by simp, rfl⟩
  · cases h
  · cases h
    exact ⟨_, _, none, _, hold, .unlock task, rfl, by simp, rfl⟩
  · next wakingTask waitQueue =>
    cases h
    exact ⟨_, _, some wakingTask, _, hold, .handOver task wakingTask waitQueue, rfl, rfl, rfl⟩

section Operations

variable (hcur : σ.current = some task) (hinner : σ.tasks[task]? = some inner)
include hcur hinner

theorem acts_suspend (h : σ.suspendCurrentAndRunNext resume = some σ') : Acts σ [] manages σ' := by
  obtain rfl := suspendCurrentAndRunNext_eq_some h hcur
  exact ⟨hcur, hinner, .nothing, .suspend resume⟩

theorem acts_lock (h : σ.lock mutex = some σ') : Acts σ (σ'.lockEvents task mutex) manages σ' := by
  simp only [lock, hcur, do_some, do_eq_some_iff] at h
  obtain ⟨old, hold, h⟩ := h
  split at h
  · -- a spinning thread stays ready, so the pass emits nothing
    obtain rfl := suspendCurrentAndRunNext_eq_some h hcur
    rw [lockEvents, if_neg (by simp [addTask, updateTask]),
      if_neg (by simp [addTask, updateTask, hinner])]
    exact ⟨hcur, hinner, .nothing, .suspend _⟩
  · cases h
    rw [lockEvents, if_pos (by simp [updateTask, setMutex, hcur])]
    exact ⟨hcur, hinner, .mutex none hold (.acquireSpin task) rfl (.inl rfl) (by simp), .goOn⟩
  · next waitQueue =>
    obtain rfl := blockCurrentAndRunNext_eq_some h hcur
    rw [lockEvents, if_neg (by simp [updateTask]), if_pos (by simp [updateTask, setMutex, hinner])]
    exact ⟨hcur, hinner, .mutex none hold (.block task waitQueue) rfl (.inr rfl) (by simp),
      .block .user⟩
  · next waitQueue =>
    cases h
    rw [lockEvents, if_pos (by simp [updateTask, setMutex, hcur])]
    exact ⟨hcur, hinner, .mutex none hold (.acquire task waitQueue) (append_nil _) (.inl rfl)
      (by simp), .goOn⟩

theorem acts_unlock (h : σ.unlock mutex = some σ') :
    Acts σ [.mutex mutex (.unlock task (σ.woken σ'))] manages σ' := by
  obtain ⟨old, new, woken, readyQueue, hold, hdoes, hqueue, hready, rfl⟩ := unlock_eq_some task h
  rw [woken_eq woken hready]
  have hqueue' : old.waitQueue ++ queuedTask task none = woken.toList ++ new.waitQueue :=
    (append_nil _).trans hqueue
  exact ⟨hcur, hinner, .mutex woken hold hdoes hqueue' (.inl rfl) hready, .stay⟩

theorem acts_up {semaphore : Nat} (h : σ.up semaphore = some σ') :
    Acts σ [.semaphore semaphore (.up task (σ.woken σ'))] manages σ' := by
  simp only [up, do_eq_some_iff] at h
  obtain ⟨⟨count, waitQueue⟩, hold, h⟩ := h
  split at h
  · next waiter waitQueue hqueue =>
    obtain rfl : _ = waiter :: waitQueue := hqueue
    split at h
    · next hcount =>
      cases h
      rw [woken_eq (some waiter) rfl]
      exact ⟨hcur, hinner, .semaphore (some waiter) hold (.wake task waiter waitQueue hcount)
        (append_nil _) (.inl rfl) rfl, .stay⟩
    · next hcount =>
      cases h
      rw [woken_eq none (by simp [setSemaphore])]
      exact ⟨hcur, hinner, .semaphore none hold (.up task _ fun hle => absurd hle hcount)
        (append_nil _) (.inl rfl) (by simp), .stay⟩
  · next hqueue =>
    obtain rfl : _ = [] := hqueue
    cases h
    rw [woken_eq none (by simp [setSemaphore])]
    exact ⟨hcur, hinner, .semaphore none hold (.up task [] fun _ => rfl) rfl (.inl rfl)
      (by simp), .stay⟩

theorem acts_down {semaphore : Nat} (h : σ.down semaphore = some σ') :
    Acts σ [.semaphore semaphore (.down task σ'.current.isSome)] manages σ' := by
  simp only [down, hcur, do_some, do_eq_some_iff] at h
  obtain ⟨⟨count, waitQueue⟩, hold, h⟩ := h
  split at h
  · next hcount =>
    obtain rfl := blockCurrentAndRunNext_eq_some h hcur
    exact ⟨hcur, hinner, .semaphore none hold (.block task waitQueue hcount) rfl (.inr rfl)
      (by simp), .block .user⟩
  · next hcount =>
    cases h
    have hsome : (σ.setSemaphore semaphore ⟨wrapIsize (count - 1), waitQueue⟩).current.isSome =
        true := by simp [setSemaphore, hcur]
    rw [hsome]
    exact ⟨hcur, hinner, .semaphore none hold (.grant task waitQueue (Int.not_lt.mp hcount))
      (append_nil _) (.inl rfl) (by simp), .stay⟩

theorem acts_signal {condvar : Nat} (h : σ.signal condvar = some σ') :
    Acts σ [.condvar condvar (.signal task (σ.woken σ'))] manages σ' := by
  simp only [signal, do_eq_some_iff] at h
  obtain ⟨⟨waitQueue⟩, hold, h⟩ := h
  split at h
  · next waiter waitQueue hqueue =>
    obtain rfl : _ = waiter :: waitQueue := hqueue
    cases h
    rw [woken_eq (some waiter) rfl]
    exact ⟨hcur, hinner, .signal (some waiter) hold (.wake task waiter waitQueue) rfl rfl, .stay⟩
  · next hqueue =>
    obtain rfl : _ = [] := hqueue
    cases h
    rw [woken_eq none (by simp)]
    have hset : σ.condvars.set condvar ⟨[]⟩ = σ.condvars := by
      obtain ⟨hlt, hget⟩ := List.getElem?_eq_some_iff.mp hold
      rw [← hget, List.set_getElem_self]
    have hoperates : Operates σ task none _ _ :=
      .signal none hold (.signal task) rfl (append_nil _).symm
    rw [hset] at hoperates
    exact ⟨hcur, hinner, hoperates, .stay⟩

theorem acts_wait {condvar : Nat} (h : σ.wait condvar mutex = some σ') :
    Acts σ [.mutex mutex (.unlock task (σ.woken σ')), .condvar condvar (.wait task mutex)]
      manages σ' := by
  simp only [wait, do_eq_some_iff] at h
  obtain ⟨σ₁, hunlock, _, hcur₁, old', hold', h⟩ := h
  obtain ⟨old, new, woken, readyQueue, hold, hdoes, hqueue, hready, rfl⟩ :=
    unlock_eq_some task hunlock
  obtain rfl : task = _ := Option.some.inj (hcur.symm.trans hcur₁)
  obtain rfl := blockCurrentAndRunNext_eq_some h hcur₁
  -- blocking adds nothing to the ready queue: the woken thread is that of `unlock`
  rw [woken_eq woken hready]
  exact ⟨hcur, hinner, .wait woken hold hdoes hqueue hold' hready, .block (.lock mutex)⟩

theorem acts_sysSleep {nowMs ms : Nat} (h : σ.sysSleep nowMs ms = some σ') :
    Acts σ [] manages σ' := by
  simp only [sysSleep, hcur, do_some] at h
  obtain rfl := blockCurrentAndRunNext_eq_some h hcur
  exact ⟨hcur, hinner, .addTimer _, .block .user⟩

theorem acts_exitCurrentAndRunNext {exitCode : Int}
    (h : σ.exitCurrentAndRunNext exitCode = some σ') : Acts σ [] true σ' := by
  have htask : σ.currentTask = some (task, inner) := by simp [currentTask, hcur, hinner]
  simp only [exitCurrentAndRunNext, htask, do_some, do_eq_some_iff] at h
  obtain ⟨process, -, tid, -, allocator, -, h⟩ := h
  split at h
  · split at h
    · cases h
    · cases h
      exact ⟨hcur, hinner, .nothing, .exit exitCode _⟩
  · cases h
    exact ⟨hcur, hinner, .nothing, .exit exitCode _⟩

theorem acts_sysFork (h : σ.sysFork = some σ') : Acts σ [] true σ' := by
  simp only [sysFork, bind_eq_bind, bind_eq_some_iff] at h
  obtain ⟨⟨index, process⟩, -, h⟩ := h
  split at h
  · cases h
  · simp only [bind_eq_some_iff, Option.some.injEq] at h
    obtain ⟨mainTask, -, mainInner, -, ownTid, -, rfl⟩ := h
    exact ⟨hcur, hinner, .nothing, .spawn _ _ _⟩

theorem acts_sysThreadCreate {tid : Nat} (h : σ.sysThreadCreate = some (σ', tid)) :
    Acts σ [] true σ' := by
  simp only [sysThreadCreate, do_eq_some_iff, Option.some.injEq, Prod.mk.injEq] at h
  obtain ⟨_, -, process, -, ownTid, -, rfl, -⟩ := h
  exact ⟨hcur, hinner, .nothing, .spawn _ _ _⟩

theorem acts_sysWaittid {tid : Nat} {result : Int} (h : σ.sysWaittid tid = some (σ', result)) :
    Acts σ [] true σ' := by
  have hsame : Acts σ [] true σ := ⟨hcur, hinner, .nothing, .stay⟩
  simp only [sysWaittid, do_eq_some_iff] at h
  obtain ⟨_, -, process, -, ownTid, -, h⟩ := h
  split at h
  · cases h
    exact hsame
  · obtain ⟨entry, -, h⟩ := bind_eq_some_iff.mp h
    split at h
    · cases h
      exact hsame
    · obtain ⟨waited, -, h⟩ := bind_eq_some_iff.mp h
      split at h
      · cases h
        exact ⟨hcur, hinner, .nothing, .reap _⟩
      · cases h
        exact hsame

theorem acts_sysMutexCreate {blocking : Bool} (h : σ.sysMutexCreate blocking = some (σ', id)) :
    Acts σ [] manages σ' := by
  simp only [sysMutexCreate, do_eq_some_iff, Option.some.injEq, Prod.mk.injEq] at h
  obtain ⟨_, -, rfl, -⟩ := h
  have hnew : (if blocking then Mutex.blocking false [] else .spin false).IsNew := by
    cases blocking
    · exact .inl rfl
    · exact .inr rfl
  exact ⟨hcur, hinner, .newMutex hnew _ _, .stay⟩

theorem acts_sysSemaphoreCreate {resCount : Nat}
    (h : σ.sysSemaphoreCreate resCount = some (σ', id)) : Acts σ [] manages σ' := by
  simp only [sysSemaphoreCreate, do_eq_some_iff, Option.some.injEq, Prod.mk.injEq] at h
  obtain ⟨_, -, rfl, -⟩ := h
  exact ⟨hcur, hinner, .newSemaphore resCount _ _, .stay⟩

theorem acts_sysCondvarCreate (h : σ.sysCondvarCreate = some (σ', id)) : Acts σ [] manages σ' := by
  simp only [sysCondvarCreate, do_eq_some_iff, Option.some.injEq, Prod.mk.injEq] at h
  obtain ⟨_, -, rfl, -⟩ := h
  exact ⟨hcur, hinner, .newCondvar _ _, .stay⟩

/-! ## System calls and steps -/

omit hinner in
theorem events_eq {found : Nat × Process} (hfound : σ.currentProcess = some found) :
    σ.events σ' call = σ.syscallEvents σ' task found.2 call := by
  have hprocess := hfound
  simp only [currentProcess, do_eq_some_iff] at hfound
  obtain ⟨⟨_, inner⟩, htask, -⟩ := hfound
  cases hcur.symm.trans (currentTask_eq_some htask).1
  rw [events, htask, hprocess]

omit hcur hinner in
theorem bind_slot_eq_some {lists : Process → List (Option Nat)} {f : Nat → Option Kernel}
    (h : (σ.currentProcess.bind fun found => (slot (lists found.2) id).bind f) = some σ') :
    ∃ found, σ.currentProcess = some found ∧
      ∃ object, slot (lists found.2) id = some object ∧ f object = some σ' := by
  obtain ⟨found, hfound, h⟩ := bind_eq_some_iff.mp h
  exact ⟨found, hfound, bind_eq_some_iff.mp h⟩

omit hcur hinner in
theorem events_of_quiet (hquiet : ∀ task process, σ.syscallEvents σ' task process call = []) :
    σ.events σ' call = [] := by
  rw [events]
  split
  · exact hquiet _ _
  · rfl

theorem acts_syscall (h : σ.syscall call = some σ') :
    Acts σ (σ.events σ' call) call.managesThreads σ' := by
  cases call with
  | yield | fileWait =>
    rw [events_of_quiet fun _ _ => rfl]
    exact acts_suspend hcur hinner h
  | exit exitCode =>
    rw [events_of_quiet fun _ _ => rfl]
    exact acts_exitCurrentAndRunNext hcur hinner h
  | fork =>
    rw [events_of_quiet fun _ _ => rfl]
    exact acts_sysFork hcur hinner h
  | sleep nowMs ms =>
    rw [events_of_quiet fun _ _ => rfl]
    exact acts_sysSleep hcur hinner h
  | threadCreate =>
    obtain ⟨⟨_, tid⟩, hcall, rfl⟩ := map_eq_some_iff.mp h
    rw [events_of_quiet fun _ _ => rfl]
    exact acts_sysThreadCreate hcur hinner hcall
  | waittid tid =>
    obtain ⟨⟨_, result⟩, hcall, rfl⟩ := map_eq_some_iff.mp h
    rw [events_of_quiet fun _ _ => rfl]
    exact acts_sysWaittid hcur hinner hcall
  | mutexCreate blocking =>
    obtain ⟨⟨_, id⟩, hcall, rfl⟩ := map_eq_some_iff.mp h
    rw [events_of_quiet fun _ _ => rfl]
    exact acts_sysMutexCreate hcur hinner hcall
  | semaphoreCreate resCount =>
    obtain ⟨⟨_, id⟩, hcall, rfl⟩ := map_eq_some_iff.mp h
    rw [events_of_quiet fun _ _ => rfl]
    exact acts_sysSemaphoreCreate hcur hinner hcall
  | condvarCreate =>
    obtain ⟨⟨_, id⟩, hcall, rfl⟩ := map_eq_some_iff.mp h
    rw [events_of_quiet fun _ _ => rfl]
    exact acts_sysCondvarCreate hcur hinner hcall
  | mutexLock mutexId =>
    obtain ⟨found, hfound, mutex, hslot, h⟩ := bind_slot_eq_some h
    rw [events_eq hcur hfound]
    simpa [syscallEvents, hslot] using acts_lock hcur hinner h
  | mutexUnlock mutexId =>
    obtain ⟨found, hfound, mutex, hslot, h⟩ := bind_slot_eq_some h
    rw [events_eq hcur hfound]
    simpa [syscallEvents, hslot] using acts_unlock hcur hinner h
  | semaphoreUp semId =>
    obtain ⟨found, hfound, semaphore, hslot, h⟩ := bind_slot_eq_some h
    rw [events_eq hcur hfound]
    simpa [syscallEvents, hslot] using acts_up hcur hinner h
  | semaphoreDown semId =>
    obtain ⟨found, hfound, semaphore, hslot, h⟩ := bind_slot_eq_some h
    rw [events_eq hcur hfound]
    simpa [syscallEvents, hslot] using acts_down hcur hinner h
  | condvarSignal condvarId =>
    obtain ⟨found, hfound, condvar, hslot, h⟩ := bind_slot_eq_some h
    rw [events_eq hcur hfound]
    simpa [syscallEvents, hslot] using acts_signal hcur hinner h
  | condvarWait condvarId mutexId =>
    simp only [syscall, sysCondvarWait, do_eq_some_iff] at h
    obtain ⟨found, hfound, condvar, hslot, mutex, hslot', h⟩ := h
    rw [events_eq hcur hfound]
    simpa [syscallEvents, hslot, hslot'] using acts_wait hcur hinner h

end Operations

/-- `check_timer` moves threads from the heap to the ready queue, nothing else. -/
theorem checkTimer_frame {nowMs : Nat} (h : CheckTimer nowMs σ σ') :
    ∃ timers woken, σ' = { σ with timers := timers, readyQueue := σ.readyQueue ++ woken } := by
  induction h with
  | empty hempty => exact ⟨_, [], by rw [append_nil]⟩
  | stop hpeek hlater => exact ⟨_, [], by rw [append_nil]⟩
  | @pop _ _ timer hpeek hdue hrest ih =>
    obtain ⟨timers, woken, heq⟩ := ih
    exact ⟨timers, timer.task :: woken, by simp [heq, addTask]⟩

theorem Chosen.acts {choice : Choice} (h : Chosen σ choice σ') (hrun : choice ≠ .runTasks) :
    Acts σ (σ.syncEvents choice σ') choice.managesThreads σ' := by
  cases h with
  | runTasks hidle => exact absurd rfl hrun
  | syscall hat h =>
    obtain ⟨task, inner, hcur, hinner, -⟩ := hat.exists_task
    exact acts_syscall hcur hinner h
  | timer hat hcheck h =>
    obtain ⟨task, inner, hcur, hinner, -⟩ := hat.exists_task
    obtain ⟨timers, woken, rfl⟩ := checkTimer_frame hcheck
    obtain rfl := suspendCurrentAndRunNext_eq_some h hcur
    exact ⟨hcur, hinner, .checkTimer hcheck, .suspend .user⟩
  | lock hat h =>
    obtain ⟨task, inner, hcur, hinner, -⟩ := hat.exists_task
    simpa [syncEvents, hcur] using acts_lock hcur hinner h
  | pollAgain hat h =>
    obtain ⟨task, inner, hcur, hinner, -⟩ := hat.exists_task
    exact acts_suspend hcur hinner h
  | pollDone hat hcur =>
    obtain ⟨task, inner, hcur', hinner, -⟩ := hat.exists_task
    cases hcur.symm.trans hcur'
    exact ⟨hcur, hinner, .nothing, .goOn⟩

theorem Operates.current {queued : Option Resume} {es : List SyncEvent}
    (h : Operates σ task queued es σ') : σ'.current = σ.current := by
  cases h with
  | checkTimer hcheck =>
    obtain ⟨timers, woken, rfl⟩ := checkTimer_frame hcheck
    rfl
  | _ => rfl

theorem Operates.tasks {queued : Option Resume} {es : List SyncEvent}
    (h : Operates σ task queued es σ') : σ'.tasks = σ.tasks := by
  cases h with
  | checkTimer hcheck =>
    obtain ⟨timers, woken, rfl⟩ := checkTimer_frame hcheck
    rfl
  | _ => rfl

end Kernel

end RCore.Task
