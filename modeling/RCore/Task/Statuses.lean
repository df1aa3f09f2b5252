import RCore.Task.ThreadIds

/-!
# The status of a thread and its place

A thread that leaves the processor gets its status from where it goes, and a thread that is
given the processor is running.  A waiting thread that is woken goes to the ready queue with the
status it has, so it is blocking there until it runs.  Every step is described by the threads it
wakes and by what happens to the current thread.
-/

namespace RCore.Task

open RCore.Lib.History Function List Option

inductive WakeEvent where
  /-- a waiting thread is put into the ready queue -/
  | wake (task : Nat)
  /-- the thread gets the processor -/
  | run (task : Nat)
  deriving DecidableEq, Repr

def nextWoken (woken : Nat → Bool) : WakeEvent → Nat → Bool
  | .wake task => Function.update woken task true
  | .run task => Function.update woken task false

/-- The thread has been woken and has not run since. -/
def wokenSince (history : List WakeEvent) : Nat → Bool :=
  history.foldl nextWoken fun _ => false

theorem foldl_nextWoken_wake (tasks : List Nat) (woken : Nat → Bool) (task : Nat) :
    (tasks.map WakeEvent.wake).foldl nextWoken woken task =
      (woken task || decide (task ∈ tasks)) := by
  induction tasks generalizing woken with
  | nil => simp
  | cons first rest ih =>
    rw [map_cons, foldl_cons, ih, nextWoken]
    by_cases h : task = first
    · subst h
      simp
    · simp [h]

namespace Kernel

/-- The threads in the timer heap and in the wait queues. -/
def waitingThreads (σ : Kernel) : List Nat :=
  σ.timers.map (·.task) ++ (σ.mutexes.flatMap Mutex.waitQueue ++
    (σ.semaphores.flatMap (·.waitQueue) ++ σ.condvars.flatMap (·.waitQueue)))

def statusOf (σ : Kernel) (task : Nat) : Option TaskStatus :=
  σ.tasks[task]?.map (·.taskStatus)

/-- The status of every live thread is that of its place. -/
def StatusAgrees (σ : Kernel) : Prop :=
  ∀ task inner, σ.tasks[task]? = some inner → inner.exitCode = none →
    (inner.taskStatus = .running ↔ σ.current = some task) ∧
    (inner.taskStatus = .ready ↔ task ∈ σ.readyQueue) ∧
    (inner.taskStatus = .blocking ↔ task ∈ σ.waitingThreads)

def wakeEvents (σ : Kernel) (choice : Choice) (σ' : Kernel) : List WakeEvent :=
  match choice with
  | .runTasks => σ.readyQueue.head?.toList.map .run
  | _ => (σ.waitingThreads.filter (· ∈ σ'.readyQueue)).map .wake

variable {σ σ' : Kernel} {task : Nat} {inner : TaskControlBlock}

/-! ## Places -/

theorem occurrences_split (σ : Kernel) (task : Nat) : σ.occurrences task =
    σ.current.toList.count task + σ.readyQueue.count task + σ.waitingThreads.count task := by
  rw [occurrences_eq, waitingThreads]
  simp only [count_append]
  omega

theorem Placed.live_of_mem (h : Placed σ)
    (hmem : σ.current = some task ∨ task ∈ σ.readyQueue ∨ task ∈ σ.waitingThreads) :
    σ.live task = true := by
  have hcount := h task
  rw [occurrences_split] at hcount
  by_contra hdead
  rw [if_neg hdead] at hcount
  rcases hmem with hcur | hready | hwaiting
  · simp [hcur] at hcount
  · have := count_pos_iff.mpr hready
    omega
  · have := count_pos_iff.mpr hwaiting
    omega

theorem Placed.exists_place (h : Placed σ) (hlive : σ.live task = true) :
    σ.current = some task ∨ task ∈ σ.readyQueue ∨ task ∈ σ.waitingThreads := by
  have hcount := h task
  rw [occurrences_split, if_pos hlive] at hcount
  by_contra hnone
  simp only [not_or] at hnone
  obtain ⟨hcur, hready, hwaiting⟩ := hnone
  rw [count_eq_zero_of_not_mem hready, count_eq_zero_of_not_mem hwaiting,
    count_eq_zero_of_not_mem (by simpa using hcur)] at hcount
  omega

theorem Placed.notMem_of_current (h : Placed σ) (hcur : σ.current = some task) :
    task ∉ σ.readyQueue ∧ task ∉ σ.waitingThreads := by
  have hcount := h task
  rw [occurrences_split, if_pos (h.live_of_mem (.inl hcur)), hcur] at hcount
  simp only [toList_some, count_singleton_self] at hcount
  exact ⟨count_eq_zero.mp (by omega), count_eq_zero.mp (by omega)⟩

theorem Placed.notMem_of_ready (h : Placed σ) (hready : task ∈ σ.readyQueue) :
    task ∉ σ.waitingThreads := by
  have hcount := h task
  rw [occurrences_split, if_pos (h.live_of_mem (.inr (.inl hready)))] at hcount
  have hpos := count_pos_iff.mpr hready
  exact count_eq_zero.mp (by omega)

theorem Placed.notMem_rest (h : Placed σ) {rest : List Nat} (hready : σ.readyQueue = task :: rest) :
    task ∉ rest := by
  have hcount := h task
  have hmem : task ∈ σ.readyQueue := by simp [hready]
  rw [occurrences_split, if_pos (h.live_of_mem (.inr (.inl hmem))), hready,
    count_cons_self] at hcount
  exact count_eq_zero.mp (by omega)

theorem waiting_of_timer (timer : TimerCondVar) (h : timer ∈ σ.timers) :
    timer.task ∈ σ.waitingThreads :=
  mem_append_left _ (mem_map_of_mem h)

theorem waiting_of_mutex {mutex : Nat} (value : Mutex) (hvalue : σ.mutexes[mutex]? = some value)
    (h : task ∈ value.waitQueue) : task ∈ σ.waitingThreads := by
  refine mem_append_right _ (mem_append_left _ ?_)
  exact mem_flatMap.mpr ⟨value, mem_of_getElem? hvalue, h⟩

theorem waiting_of_semaphore {semaphore : Nat} (value : Semaphore)
    (hvalue : σ.semaphores[semaphore]? = some value) (h : task ∈ value.waitQueue) :
    task ∈ σ.waitingThreads := by
  refine mem_append_right _ (mem_append_right _ (mem_append_left _ ?_))
  exact mem_flatMap.mpr ⟨value, mem_of_getElem? hvalue, h⟩

theorem waiting_of_condvar {condvar : Nat} (value : Condvar)
    (hvalue : σ.condvars[condvar]? = some value) (h : task ∈ value.waitQueue) :
    task ∈ σ.waitingThreads := by
  refine mem_append_right _ (mem_append_right _ (mem_append_right _ ?_))
  exact mem_flatMap.mpr ⟨value, mem_of_getElem? hvalue, h⟩

/-! ## What a step does to the places and statuses -/

/-- The current thread stays, is suspended, blocks or exits, or a thread is created. -/
inductive Fate (σ σ' : Kernel) : Prop where
  | stay (hcur : σ'.current = σ.current) (hstatus : σ'.statusOf = σ.statusOf)
  | suspend {task : Nat} (hcur : σ.current = some task) (hcur' : σ'.current = none)
      (hmem : task ∈ σ'.readyQueue)
      (hstatus : σ'.statusOf = Function.update σ.statusOf task (some .ready))
  | block {task : Nat} (hcur : σ.current = some task) (hcur' : σ'.current = none)
      (hmem : task ∈ σ'.waitingThreads)
      (hstatus : σ'.statusOf = Function.update σ.statusOf task (some .blocking))
  | exit {task : Nat} (hcur : σ.current = some task) (hcur' : σ'.current = none)
      (hdead : σ'.live task = false) (hstatus : σ'.statusOf = σ.statusOf)
  | spawn {new : Nat} (hnew : σ.statusOf new = none) (hcur : σ'.current = σ.current)
      (hmem : new ∈ σ'.readyQueue)
      (hstatus : σ'.statusOf = Function.update σ.statusOf new (some .ready))

/-- Threads may have been put into the ready queue, but none is taken from it. -/
structure Reschedules (σ σ' : Kernel) : Prop where
  ready : σ.readyQueue ⊆ σ'.readyQueue
  fate : Fate σ σ'

theorem statusOf_same {f : TaskControlBlock → TaskControlBlock}
    (htasks : σ'.tasks = σ.tasks.modify task f)
    (hf : ∀ inner, (f inner).taskStatus = inner.taskStatus) : σ'.statusOf = σ.statusOf := by
  funext other
  rw [statusOf, statusOf, htasks, getElem?_modify]
  cases σ.tasks[other]? with
  | none => rfl
  | some inner => by_cases h : task = other <;> simp [h, hf]

theorem statusOf_of_eq (htasks : σ'.tasks = σ.tasks) : σ'.statusOf = σ.statusOf := by
  funext other
  rw [statusOf, statusOf, htasks]

theorem statusOf_update {f : TaskControlBlock → TaskControlBlock} {status : TaskStatus}
    (hinner : σ.tasks[task]? = some inner) (htasks : σ'.tasks = σ.tasks.modify task f)
    (hf : ∀ inner, (f inner).taskStatus = status) :
    σ'.statusOf = update σ.statusOf task (some status) := by
  funext other
  by_cases h : other = task
  · subst h
    simp [statusOf, htasks, hinner, hf]
  · simp [statusOf, htasks, h, Ne.symm h]

theorem statusOf_append (new : TaskControlBlock) (htasks : σ'.tasks = σ.tasks ++ [new]) :
    σ'.statusOf = update σ.statusOf σ.tasks.length (some new.taskStatus) := by
  funext other
  rw [statusOf, htasks]
  rcases Nat.lt_trichotomy other σ.tasks.length with h | h | h
  · rw [update_of_ne (Nat.ne_of_lt h), getElem?_append_left h, statusOf]
  · subst h
    simp
  · rw [update_of_ne (Nat.ne_of_gt h), statusOf, getElem?_eq_none (Nat.le_of_lt h),
      getElem?_eq_none (by rw [length_append, length_singleton]; omega)]

theorem mem_of_queued {old new : List Nat} {queued : Option Resume} {woken : Option Nat}
    (hqueued : queued.isSome) (hqueue : old ++ queuedTask task queued = woken.toList ++ new)
    (hone : queued = none ∨ woken = none) : task ∈ new := by
  obtain ⟨resume, rfl⟩ := isSome_iff_exists.mp hqueued
  obtain rfl := hone.resolve_left nofun
  obtain rfl : old ++ [task] = new := hqueue
  simp

theorem Operates.places {queued : Option Resume} {es : List SyncEvent}
    (h : Operates σ task queued es σ') :
    σ.readyQueue ⊆ σ'.readyQueue ∧ (queued.isSome → task ∈ σ'.waitingThreads) := by
  cases h with
  | nothing | newMutex | newSemaphore | newCondvar => exact ⟨Subset.refl _, nofun⟩
  | checkTimer hcheck =>
    obtain ⟨timers, woken, rfl⟩ := checkTimer_frame hcheck
    exact ⟨List.subset_append_left _ _, nofun⟩
  | addTimer expireMs =>
    exact ⟨Subset.refl _, fun _ => waiting_of_timer ⟨expireMs, task⟩ mem_cons_self⟩
  | @mutex _ _ new _ _ _ woken hold hdoes hqueue hone hready =>
    refine ⟨hready ▸ List.subset_append_left _ _, fun hqueued => ?_⟩
    exact waiting_of_mutex new (List.getElem?_set_self (List.getElem?_eq_some_iff.mp hold).1)
      (mem_of_queued hqueued hqueue hone)
  | @semaphore _ _ new _ _ _ woken hold hdoes hqueue hone hready =>
    refine ⟨hready ▸ List.subset_append_left _ _, fun hqueued => ?_⟩
    exact waiting_of_semaphore new (List.getElem?_set_self (List.getElem?_eq_some_iff.mp hold).1)
      (mem_of_queued hqueued hqueue hone)
  | signal woken hold hdoes hqueue hready =>
    exact ⟨hready ▸ List.subset_append_left _ _, nofun⟩
  | @wait _ _ _ _ old' _ woken hold hdoes hqueue hold' hready =>
    refine ⟨hready ▸ List.subset_append_left _ _, fun _ => ?_⟩
    exact waiting_of_condvar ⟨old'.waitQueue ++ [task]⟩
      (List.getElem?_set_self (List.getElem?_eq_some_iff.mp hold').1) (by simp)

theorem Acts.reschedules {es : List SyncEvent} {manages : Bool} (h : Acts σ es manages σ') :
    Reschedules σ σ' := by
  obtain @⟨task, inner, queued, σ₁, hcur, hinner, hoperates, hproceeds⟩ := h
  obtain ⟨hready, hwaiting⟩ := hoperates.places
  have hstatus := statusOf_of_eq hoperates.tasks
  have hcur₁ := hoperates.current
  rw [← hoperates.tasks] at hinner
  cases hproceeds with
  | stay | reap => exact ⟨hready, .stay hcur₁ hstatus⟩
  | goOn =>
    refine ⟨hready, .stay hcur₁ ?_⟩
    rw [← hstatus]
    exact statusOf_same rfl fun _ => rfl
  | suspend resume =>
    refine ⟨subset_append_of_subset_left _ hready, .suspend hcur rfl (by simp [addTask]) ?_⟩
    rw [← hstatus]
    exact statusOf_update hinner rfl fun _ => rfl
  | block resume =>
    refine ⟨hready, .block hcur rfl (hwaiting rfl) ?_⟩
    rw [← hstatus]
    exact statusOf_update hinner rfl fun _ => rfl
  | exit exitCode processes =>
    refine ⟨hready, .exit hcur rfl (by simp [live, updateTask, hinner]) ?_⟩
    rw [← hstatus]
    exact statusOf_same rfl fun _ => rfl
  | spawn process tid processes =>
    have hnone : σ₁.statusOf σ₁.tasks.length = none := by simp [statusOf]
    rw [hstatus] at hnone
    refine ⟨subset_append_of_subset_left _ hready, .spawn hnone hcur₁ (by simp) ?_⟩
    rw [← hstatus]
    exact statusOf_append (.new process tid) rfl

/-! ## The invariant -/

/-- The status of a thread by its place; in the ready queue a thread that was woken is still
blocking. -/
structure StatusInv (σ : Kernel) (woken : Nat → Bool) : Prop where
  current : ∀ {task}, σ.current = some task →
    σ.statusOf task = some .running ∧ woken task = false
  ready : ∀ {task}, task ∈ σ.readyQueue →
    σ.statusOf task = some (if woken task then .blocking else .ready)
  waiting : ∀ {task}, task ∈ σ.waitingThreads → σ.statusOf task = some .blocking
  exists_of_woken : ∀ {task}, woken task = true → σ.statusOf task ≠ none

theorem statusOf_of_live (h : σ.live task = true) : σ.statusOf task ≠ none := by
  intro hnone
  rw [statusOf, map_eq_none_iff] at hnone
  simp [live, hnone] at h

theorem Chosen.live_or_new (h : Reachable σ) {choice : Choice} (hchosen : Chosen σ choice σ')
    (hlive : σ'.live task = true) : σ.live task = true ∨ σ.statusOf task = none := by
  cases hinner : σ.tasks[task]? with
  | none => exact .inr (by rw [statusOf, hinner]; rfl)
  | some inner =>
    cases hcode : inner.exitCode with
    | none => exact .inl (by simp [live, hinner, hcode])
    | some exitCode =>
      have hkept := hchosen.threadEffect.threadOf_exited h.threadInv (threadOf_eq hinner) hcode
      obtain ⟨inner', hinner', heq⟩ := map_eq_some_iff.mp hkept
      have hcode' : inner'.exitCode = inner.exitCode := (Thread.mk.inj heq).2.2
      simp [live, hinner', hcode', hcode] at hlive

section Step

variable {woken : Nat → Bool} {choice : Choice}

theorem woken_wakeEvents (hrun : choice ≠ .runTasks) (woken : Nat → Bool) (task : Nat) :
    (σ.wakeEvents choice σ').foldl nextWoken woken task =
      (woken task || decide (task ∈ σ.waitingThreads ∧ task ∈ σ'.readyQueue)) := by
  have hevents : σ.wakeEvents choice σ' =
      (σ.waitingThreads.filter (· ∈ σ'.readyQueue)).map .wake := by
    unfold wakeEvents
    split
    · exact absurd rfl hrun
    · rfl
  rw [hevents, foldl_nextWoken_wake]
  simp

theorem Fate.statusOf_eq (h : Fate σ σ') (hcur : σ.current ≠ some task)
    (hold : σ.statusOf task ≠ none) : σ'.statusOf task = σ.statusOf task := by
  cases h with
  | stay _ hstatus => rw [hstatus]
  | suspend hcur₁ _ _ hstatus | block hcur₁ _ _ hstatus =>
    rw [hstatus, update_of_ne]
    rintro rfl
    exact hcur hcur₁
  | exit _ _ _ hstatus => rw [hstatus]
  | spawn hnew _ _ hstatus =>
    rw [hstatus, update_of_ne]
    rintro rfl
    exact hold hnew

theorem Fate.statusOf_ne_none (h : Fate σ σ') (hold : σ.statusOf task ≠ none) :
    σ'.statusOf task ≠ none := by
  cases h with
  | stay _ hstatus | exit _ _ _ hstatus => rwa [hstatus]
  | suspend _ _ _ hstatus | block _ _ _ hstatus | spawn _ _ _ hstatus =>
    rw [hstatus, update_apply]
    split
    · simp
    · exact hold

theorem Fate.current_of_current (h : Fate σ σ') (hcur' : σ'.current = some task) :
    σ.current = some task := by
  cases h with
  | stay hcur | spawn _ hcur => rwa [hcur] at hcur'
  | suspend _ hnone | block _ hnone | exit _ hnone =>
    rw [hnone] at hcur'
    cases hcur'

variable (hinv : StatusInv σ woken) (hfate : Fate σ σ') (hlive' : σ'.live task = true)
include hinv hfate hlive'

theorem StatusInv.of_new (hnone : σ.statusOf task = none) :
    task ∈ σ'.readyQueue ∧ σ'.statusOf task = some .ready := by
  have hsome := statusOf_of_live hlive'
  cases hfate with
  | stay _ hstatus | exit _ _ _ hstatus =>
    rw [hstatus] at hsome
    exact absurd hnone hsome
  | @suspend running hcur _ _ hstatus | @block running hcur _ _ hstatus =>
    -- the current thread is not new
    have hne : task ≠ running := by
      rintro rfl
      rw [(hinv.current hcur).1] at hnone
      cases hnone
    rw [hstatus, update_of_ne hne] at hsome
    exact absurd hnone hsome
  | @spawn new hnew _ hmem hstatus =>
    by_cases heq : task = new
    · subst heq
      exact ⟨hmem, by rw [hstatus, update_self]⟩
    · rw [hstatus, update_of_ne heq] at hsome
      exact absurd hnone hsome

theorem StatusInv.of_current (hcur : σ.current = some task) :
    (σ'.current = some task ∧ σ'.statusOf task = some .running) ∨
    (task ∈ σ'.readyQueue ∧ σ'.statusOf task = some .ready) ∨
    (task ∈ σ'.waitingThreads ∧ σ'.statusOf task = some .blocking) := by
  have hrunning := (hinv.current hcur).1
  cases hfate with
  | stay hsame hstatus => exact .inl ⟨hsame.trans hcur, by rw [hstatus, hrunning]⟩
  | suspend hcur₁ _ hmem hstatus =>
    cases hcur.symm.trans hcur₁
    exact .inr (.inl ⟨hmem, by rw [hstatus, update_self]⟩)
  | block hcur₁ _ hmem hstatus =>
    cases hcur.symm.trans hcur₁
    exact .inr (.inr ⟨hmem, by rw [hstatus, update_self]⟩)
  | exit hcur₁ _ hdead _ =>
    cases hcur.symm.trans hcur₁
    rw [hdead] at hlive'
    cases hlive'
  | spawn hnew hsame _ hstatus =>
    refine .inl ⟨hsame.trans hcur, ?_⟩
    rw [hstatus, update_of_ne, hrunning]
    rintro rfl
    rw [hrunning] at hnew
    cases hnew

end Step

/-- A step other than `run_tasks`. -/
theorem StatusInv.step {woken woken' : Nat → Bool} (hinv : StatusInv σ woken) (hplaced : Placed σ)
    (hplaced' : Placed σ') (h : Reschedules σ σ')
    (hold : ∀ task, σ'.live task = true → σ.live task = true ∨ σ.statusOf task = none)
    (hwoken : ∀ task, woken' task =
      (woken task || decide (task ∈ σ.waitingThreads ∧ task ∈ σ'.readyQueue))) :
    StatusInv σ' woken' := by
  have hkept : ∀ {task}, task ∉ σ.waitingThreads → woken' task = woken task := by
    intro task hnot
    rw [hwoken, decide_eq_false (fun hboth => hnot hboth.1), Bool.or_false]
  have hunwoken : ∀ {task}, σ.statusOf task = none → woken task = false := by
    intro task hnone
    rw [← Bool.not_eq_true]
    exact fun htrue => hinv.exists_of_woken htrue hnone
  refine ⟨?_, ?_, ?_, ?_⟩
  · intro task hcur'
    have hlive' := hplaced'.live_of_mem (.inl hcur')
    have hcur := h.fate.current_of_current hcur'
    obtain ⟨hready', hwaiting'⟩ := hplaced'.notMem_of_current hcur'
    refine ⟨?_, (hkept (hplaced.notMem_of_current hcur).2).trans (hinv.current hcur).2⟩
    rcases hinv.of_current h.fate hlive' hcur with ⟨-, hrunning⟩ | ⟨hmem, -⟩ | ⟨hmem, -⟩
    · exact hrunning
    · exact absurd hmem hready'
    · exact absurd hmem hwaiting'
  · intro task hmem'
    have hlive' := hplaced'.live_of_mem (.inr (.inl hmem'))
    rcases hold task hlive' with hlive | hnone
    · rcases hplaced.exists_place hlive with hcur | hmem | hmem
      · rw [hkept (hplaced.notMem_of_current hcur).2, (hinv.current hcur).2]
        rcases hinv.of_current h.fate hlive' hcur with ⟨hcur', -⟩ | ⟨-, hready⟩ | ⟨hwaiting, -⟩
        · exact absurd hmem' (hplaced'.notMem_of_current hcur').1
        · exact hready
        · exact absurd hwaiting (hplaced'.notMem_of_ready hmem')
      · have hcur : σ.current ≠ some task := fun hcur => (hplaced.notMem_of_current hcur).1 hmem
        rw [hkept (hplaced.notMem_of_ready hmem), h.fate.statusOf_eq hcur (statusOf_of_live hlive)]
        exact hinv.ready hmem
      · -- the thread has been woken
        have hcur : σ.current ≠ some task := fun hcur => (hplaced.notMem_of_current hcur).2 hmem
        rw [h.fate.statusOf_eq hcur (statusOf_of_live hlive), hinv.waiting hmem, hwoken,
          decide_eq_true ⟨hmem, hmem'⟩, Bool.or_true, if_pos rfl]
    · have hnot : task ∉ σ.waitingThreads := by
        intro hmem
        rw [hinv.waiting hmem] at hnone
        cases hnone
      rw [hkept hnot, hunwoken hnone]
      exact (hinv.of_new h.fate hlive' hnone).2
  · intro task hmem'
    have hlive' := hplaced'.live_of_mem (.inr (.inr hmem'))
    rcases hold task hlive' with hlive | hnone
    · rcases hplaced.exists_place hlive with hcur | hmem | hmem
      · rcases hinv.of_current h.fate hlive' hcur with ⟨hcur', -⟩ | ⟨hready, -⟩ | ⟨-, hblocking⟩
        · exact absurd hmem' (hplaced'.notMem_of_current hcur').2
        · exact absurd hmem' (hplaced'.notMem_of_ready hready)
        · exact hblocking
      · exact absurd hmem' (hplaced'.notMem_of_ready (h.ready hmem))
      · have hcur : σ.current ≠ some task := fun hcur => (hplaced.notMem_of_current hcur).2 hmem
        rw [h.fate.statusOf_eq hcur (statusOf_of_live hlive)]
        exact hinv.waiting hmem
    · have hready := (hinv.of_new h.fate hlive' hnone).1
      exact absurd hmem' (hplaced'.notMem_of_ready hready)
  · intro task htrue
    apply h.fate.statusOf_ne_none
    rw [hwoken, Bool.or_eq_true, decide_eq_true_iff] at htrue
    rcases htrue with htrue | ⟨hmem, -⟩
    · exact hinv.exists_of_woken htrue
    · rw [hinv.waiting hmem]
      simp

/-- `run_tasks` gives the processor to the first thread of the ready queue. -/
theorem StatusInv.runTasks {woken : Nat → Bool} (hinv : StatusInv σ woken) (hplaced : Placed σ) :
    StatusInv σ.runTasks ((σ.wakeEvents .runTasks σ.runTasks).foldl nextWoken woken) := by
  cases hready : σ.readyQueue with
  | nil =>
    have hsame : σ.runTasks = σ := by rw [Kernel.runTasks, hready]
    rw [hsame, wakeEvents, hready]
    exact hinv
  | cons task rest =>
    have hmem : task ∈ σ.readyQueue := by simp [hready]
    have hwoken : (σ.wakeEvents .runTasks σ.runTasks).foldl nextWoken woken =
        update woken task false := by
      rw [wakeEvents, hready]
      rfl
    obtain ⟨inner, hinner, -⟩ := map_eq_some_iff.mp (hinv.ready hmem)
    have hstatus : σ.runTasks.statusOf = update σ.statusOf task (some .running) := by
      rw [Kernel.runTasks, hready]
      exact statusOf_update (σ := σ) hinner rfl fun _ => rfl
    have hcur' : σ.runTasks.current = some task := by
      rw [Kernel.runTasks, hready]
      rfl
    have hready' : σ.runTasks.readyQueue = rest := by
      rw [Kernel.runTasks, hready]
      rfl
    have hwaiting' : σ.runTasks.waitingThreads = σ.waitingThreads := by
      rw [Kernel.runTasks, hready]
      rfl
    rw [hwoken]
    refine ⟨?_, ?_, ?_, ?_⟩
    · intro other hother
      cases hcur'.symm.trans hother
      rw [hstatus, update_self, update_self]
      exact ⟨rfl, rfl⟩
    · intro other hother
      rw [hready'] at hother
      have hne : other ≠ task := by
        rintro rfl
        exact hplaced.notMem_rest hready hother
      rw [hstatus, update_of_ne hne, update_of_ne hne]
      exact hinv.ready (by rw [hready]; exact mem_cons_of_mem _ hother)
    · intro other hother
      rw [hwaiting'] at hother
      have hne : other ≠ task := by
        rintro rfl
        exact hplaced.notMem_of_ready hmem hother
      rw [hstatus, update_of_ne hne]
      exact hinv.waiting hother
    · intro other htrue
      have hne : other ≠ task := by
        rintro rfl
        rw [update_self] at htrue
        cases htrue
      rw [update_of_ne hne] at htrue
      rw [hstatus, update_of_ne hne]
      exact hinv.exists_of_woken htrue

theorem statusInv_boot : StatusInv boot fun _ => false := by
  refine ⟨nofun, ?_, nofun, nofun⟩
  intro task hmem
  obtain rfl : task = 0 := by simpa [boot] using hmem
  rfl

theorem statusInv_of_run {history : List WakeEvent}
    (h : Run (· = boot) (Labelled wakeEvents) history σ) : StatusInv σ (wokenSince history) := by
  induction h with
  | start h =>
    subst h
    exact statusInv_boot
  | @step history events σ σ' h hstep ih =>
    have hreachable := reachable_of_run h
    obtain ⟨choice, hchosen, rfl⟩ := hstep
    have hplaced' := (hreachable.step hchosen.step).placed
    have hfold : wokenSince (history ++ σ.wakeEvents choice σ') =
        (σ.wakeEvents choice σ').foldl nextWoken (wokenSince history) := foldl_append ..
    rw [hfold]
    by_cases hrun : choice = .runTasks
    · subst hrun
      cases hchosen with
      | runTasks hidle => exact ih.runTasks hreachable.placed
    · exact ih.step hreachable.placed hplaced' (hchosen.acts hrun).reschedules
        (fun _ => hchosen.live_or_new hreachable) (woken_wakeEvents hrun _)

/-- **Statuses and places.**  In every state of a run, every live thread's status agrees with its
place, if and only if no thread in the ready queue has been woken there and has not run since. -/
theorem status_agrees_iff {history : List WakeEvent}
    (h : Run (· = boot) (Labelled wakeEvents) history σ) :
    σ.StatusAgrees ↔ ∀ task ∈ σ.readyQueue, wokenSince history task = false := by
  have hinv := statusInv_of_run h
  have hplaced := (reachable_of_run h).placed
  constructor
  · intro hagrees task hmem
    rw [← Bool.not_eq_true]
    intro htrue
    have hstatus := hinv.ready hmem
    rw [htrue, if_pos rfl] at hstatus
    obtain ⟨inner, hinner, hblocking⟩ := Option.map_eq_some_iff.mp hstatus
    have hlive := hplaced.live_of_mem (.inr (.inl hmem))
    have hcode : inner.exitCode = none := by simpa [live, hinner] using hlive
    have hready := (hagrees task inner hinner hcode).2.1.mpr hmem
    rw [hblocking] at hready
    cases hready
  · intro hnone task inner hinner hcode
    have hlive : σ.live task = true := by simp [live, hinner, hcode]
    have hstatus : σ.statusOf task = some inner.taskStatus := by rw [statusOf, hinner]; rfl
    rcases hplaced.exists_place hlive with hcur | hmem | hmem
    · obtain ⟨hready, hwaiting⟩ := hplaced.notMem_of_current hcur
      have hrunning := (hinv.current hcur).1
      rw [hstatus, Option.some.injEq] at hrunning
      simp [hrunning, hcur, hready, hwaiting]
    · have hcur : σ.current ≠ some task := fun hcur => (hplaced.notMem_of_current hcur).1 hmem
      have hready := hinv.ready hmem
      rw [hstatus, hnone task hmem, if_neg (by decide), Option.some.injEq] at hready
      simp [hready, hcur, hmem, hplaced.notMem_of_ready hmem]
    · have hcur : σ.current ≠ some task := fun hcur => (hplaced.notMem_of_current hcur).2 hmem
      have hready : task ∉ σ.readyQueue := fun hready => hplaced.notMem_of_ready hready hmem
      have hblocking := hinv.waiting hmem
      rw [hstatus, Option.some.injEq] at hblocking
      simp [hblocking, hcur, hready, hmem]

/-- The main thread has created another thread. -/
theorem status_agrees_iff_created : ∃ σ,
    Run (· = boot) (Labelled wakeEvents) [.run 0] σ ∧ σ.current = some 0 ∧ σ.readyQueue = [1] ∧
      σ.StatusAgrees := by
  obtain ⟨σ, hperform, hcur, hready⟩ : ∃ σ,
      boot.performAll wakeEvents [.runTasks, .syscall .threadCreate] = some ([.run 0], σ) ∧
        σ.current = some 0 ∧ σ.readyQueue = [1] := ⟨_, rfl, rfl, rfl⟩
  have hboot : Run (· = boot) (Labelled wakeEvents) [] boot := .start rfl
  have hrun := run_of_performAll hboot _ hperform
  refine ⟨σ, hrun, hcur, hready, (status_agrees_iff hrun).mpr fun task hmem => ?_⟩
  obtain rfl : task = 1 := by simpa [hready] using hmem
  decide

/-- A thread waits for a semaphore and is woken by the main thread: it is in the ready queue, and
its status is still that of a blocked thread. -/
theorem woken_thread_is_blocking : ∃ σ inner,
    Run (· = boot) (Labelled wakeEvents) [.run 0, .run 1, .run 0, .wake 1] σ ∧
      σ.tasks[1]? = some inner ∧ inner.exitCode = none ∧ σ.readyQueue = [1] ∧
      σ.waitingThreads = [] ∧ inner.taskStatus = .blocking ∧ ¬σ.StatusAgrees := by
  obtain ⟨σ, inner, hperform, hinner, hcode, hready, hwaiting, hblocking⟩ : ∃ σ inner,
      boot.performAll wakeEvents [.runTasks, .syscall (.semaphoreCreate 0), .syscall .threadCreate,
        .syscall .yield, .runTasks, .syscall (.semaphoreDown 0), .runTasks,
        .syscall (.semaphoreUp 0)] = some ([.run 0, .run 1, .run 0, .wake 1], σ) ∧
        σ.tasks[1]? = some inner ∧ inner.exitCode = none ∧ σ.readyQueue = [1] ∧
        σ.waitingThreads = [] ∧ inner.taskStatus = .blocking :=
    ⟨_, _, rfl, rfl, rfl, rfl, rfl, rfl⟩
  have hboot : Run (· = boot) (Labelled wakeEvents) [] boot := .start rfl
  refine ⟨σ, inner, run_of_performAll hboot _ hperform, hinner, hcode, hready, hwaiting, hblocking,
    fun hagrees => ?_⟩
  have hmem := (hagrees 1 inner hinner hcode).2.2.mp hblocking
  rw [hwaiting] at hmem
  cases hmem

end Kernel

end RCore.Task
