import RCore.Task.Places

/-!
# What a step does to the synchronisation objects

Every mutex, semaphore and condition variable goes through the transitions of its
own small system, and its history is a run of that system.
-/

namespace RCore.Task

open RCore.Lib.History List Option

namespace Kernel

variable {f : TaskControlBlock → TaskControlBlock}

variable {σ σ' : Kernel} {es : List SyncEvent}

/-! ## What a step does to the objects -/

/-- Where a thread goes on. -/
def resumeOf (σ : Kernel) (task : Nat) : Option Resume :=
  σ.tasks[task]?.map (·.resume)

/-- One object changes, or a condition variable together with a mutex, or a new
object is appended, or nothing happens. -/
inductive Effect (σ σ' : Kernel) : List SyncEvent → Prop where
  | quiet (hmutexes : σ'.mutexes = σ.mutexes) (hsemaphores : σ'.semaphores = σ.semaphores)
      (hcondvars : σ'.condvars = σ.condvars) : Effect σ σ' []
  | newMutex {new : Mutex} (hnew : new.IsNew) (hmutexes : σ'.mutexes = σ.mutexes ++ [new])
      (hsemaphores : σ'.semaphores = σ.semaphores) (hcondvars : σ'.condvars = σ.condvars) :
      Effect σ σ' []
  | newSemaphore (resCount : Nat) (hmutexes : σ'.mutexes = σ.mutexes)
      (hsemaphores : σ'.semaphores = σ.semaphores ++ [.new resCount])
      (hcondvars : σ'.condvars = σ.condvars) : Effect σ σ' []
  | newCondvar (hmutexes : σ'.mutexes = σ.mutexes) (hsemaphores : σ'.semaphores = σ.semaphores)
      (hcondvars : σ'.condvars = σ.condvars ++ [.new]) : Effect σ σ' []
  | mutex {mutex : Nat} {old new : Mutex} {event : MutexEvent}
      (hold : σ.mutexes[mutex]? = some old) (hdoes : old.Does [event] new)
      (hmutexes : σ'.mutexes = σ.mutexes.set mutex new)
      (hsemaphores : σ'.semaphores = σ.semaphores) (hcondvars : σ'.condvars = σ.condvars) :
      Effect σ σ' [.mutex mutex event]
  | semaphore {semaphore : Nat} {old new : Semaphore} {event : SemaphoreEvent}
      (hold : σ.semaphores[semaphore]? = some old) (hdoes : old.Does [event] new)
      (hmutexes : σ'.mutexes = σ.mutexes)
      (hsemaphores : σ'.semaphores = σ.semaphores.set semaphore new)
      (hcondvars : σ'.condvars = σ.condvars) : Effect σ σ' [.semaphore semaphore event]
  | signal {task condvar : Nat} {woken : Option Nat} {old new : Condvar}
      (hold : σ.condvars[condvar]? = some old) (hdoes : old.Does [.signal task woken] new)
      (hmutexes : σ'.mutexes = σ.mutexes) (hsemaphores : σ'.semaphores = σ.semaphores)
      (hcondvars : σ'.condvars = σ.condvars.set condvar new) :
      Effect σ σ' [.condvar condvar (.signal task woken)]
  | wait {task condvar mutex : Nat} {woken : Option Nat} {old new : Mutex} {old' new' : Condvar}
      (hold : σ.mutexes[mutex]? = some old) (hdoes : old.Does [.unlock task woken] new)
      (hold' : σ.condvars[condvar]? = some old') (hdoes' : old'.Does [.wait task mutex] new')
      (hmutexes : σ'.mutexes = σ.mutexes.set mutex new)
      (hsemaphores : σ'.semaphores = σ.semaphores)
      (hcondvars : σ'.condvars = σ.condvars.set condvar new')
      (hresume : σ'.resumeOf task = some (.lock mutex)) :
      Effect σ σ' [.mutex mutex (.unlock task woken), .condvar condvar (.wait task mutex)]

/-- Only the running thread changes where it goes on. -/
def KeepsResume (σ σ' : Kernel) : Prop :=
  ∀ task resume, σ.current ≠ some task → σ.resumeOf task = some resume →
    σ'.resumeOf task = some resume

theorem keepsResume_of_eq (htasks : σ'.tasks = σ.tasks) : KeepsResume σ σ' := by
  intro task resume _ hresume
  rw [← hresume, resumeOf, resumeOf, htasks]

theorem keepsResume_of_append {new : TaskControlBlock} (htasks : σ'.tasks = σ.tasks ++ [new]) :
    KeepsResume σ σ' := by
  intro task resume _ hresume
  obtain ⟨inner, hinner, hresume⟩ := map_eq_some_iff.mp hresume
  rw [resumeOf, htasks, List.getElem?_append_left (List.getElem?_eq_some_iff.mp hinner).1, hinner,
    map_some, hresume]

theorem keepsResume_of_modify {task : Nat} (hcur : σ.current = some task)
    (htasks : σ'.tasks = σ.tasks.modify task f) : KeepsResume σ σ' := by
  intro other resume hne hresume
  have hother : task ≠ other := fun heq => hne (heq ▸ hcur)
  rw [← hresume]
  simp [resumeOf, htasks, hother]

/-- What of a thread only its creation and its exit change. -/
structure Thread where
  process : Nat
  res : Option Nat
  exitCode : Option Int
  deriving DecidableEq, Repr

/-- The threads of a process and the allocator of their identifiers. -/
structure ThreadTable where
  tasks : List (Option Nat)
  allocator : RecycleAllocator

def threadOf (σ : Kernel) (task : Nat) : Option Thread :=
  σ.tasks[task]?.map fun inner => ⟨inner.process, inner.res, inner.exitCode⟩

def tableOf (σ : Kernel) (process : Nat) : Option ThreadTable :=
  σ.processes[process]?.map fun process => ⟨process.tasks, process.taskResAllocator⟩

/-- No thread is created, exits or is waited for. -/
structure Frame (σ σ' : Kernel) : Prop where
  resume : KeepsResume σ σ'
  thread : σ'.threadOf = σ.threadOf
  table : σ'.tableOf = σ.tableOf

theorem threadOf_modify {task : Nat} (htasks : σ'.tasks = σ.tasks.modify task f)
    (hf : ∀ inner, (f inner).process = inner.process ∧ (f inner).res = inner.res ∧
      (f inner).exitCode = inner.exitCode) : σ'.threadOf = σ.threadOf := by
  funext other
  rw [threadOf, threadOf, htasks, getElem?_modify]
  cases σ.tasks[other]? with
  | none => rfl
  | some inner => by_cases h : task = other <;> simp [h, hf]

theorem tableOf_updateProcess (σ : Kernel) (process : Nat) {f : Process → Process}
    (hf : ∀ process, (f process).tasks = process.tasks ∧
      (f process).taskResAllocator = process.taskResAllocator) :
    (σ.updateProcess process f).tableOf = σ.tableOf := by
  funext other
  rw [tableOf, tableOf, updateProcess, getElem?_modify]
  cases σ.processes[other]? with
  | none => rfl
  | some inner => by_cases h : process = other <;> simp [h, hf]

theorem frame_of_eq (htasks : σ'.tasks = σ.tasks) (htable : σ'.tableOf = σ.tableOf) :
    Frame σ σ' where
  resume := keepsResume_of_eq htasks
  thread := by funext task; rw [threadOf, threadOf, htasks]
  table := htable

theorem frame_of_modify {task : Nat} (hcur : σ.current = some task)
    (htasks : σ'.tasks = σ.tasks.modify task f) (hf : ∀ inner, (f inner).process = inner.process ∧
      (f inner).res = inner.res ∧ (f inner).exitCode = inner.exitCode)
    (htable : σ'.tableOf = σ.tableOf) : Frame σ σ' where
  resume := keepsResume_of_modify hcur htasks
  thread := threadOf_modify htasks hf
  table := htable

theorem Frame.trans {σ₁ : Kernel} (h : Frame σ σ₁) (hcur : σ₁.current = σ.current)
    (h' : Frame σ₁ σ') : Frame σ σ' where
  resume task resume hne hresume :=
    h'.resume task resume (hcur ▸ hne) (h.resume task resume hne hresume)
  thread := h'.thread.trans h.thread
  table := h'.table.trans h.table

variable {task : Nat} {queued : Option Resume} {manages : Bool}

theorem Operates.frame (h : Operates σ task queued es σ') : Frame σ σ' := by
  refine frame_of_eq h.tasks ?_
  cases h with
  | checkTimer hcheck =>
    obtain ⟨timers, woken, rfl⟩ := checkTimer_frame hcheck
    rfl
  | newMutex | newSemaphore | newCondvar => exact tableOf_updateProcess _ _ fun _ => ⟨rfl, rfl⟩
  | _ => rfl

theorem Proceeds.keepsResume (h : Proceeds σ task queued manages σ')
    (hcur : σ.current = some task) : KeepsResume σ σ' := by
  cases h with
  | stay | reap => exact keepsResume_of_eq rfl
  | goOn | suspend | block | exit => exact keepsResume_of_modify hcur rfl
  | spawn => exact keepsResume_of_append rfl

theorem Proceeds.frame (h : Proceeds σ task queued false σ') (hcur : σ.current = some task) :
    Frame σ σ' := by
  cases h with
  | stay => exact frame_of_eq rfl rfl
  | goOn | suspend | block => exact frame_of_modify hcur rfl (fun _ => ⟨rfl, rfl, rfl⟩) rfl

theorem Proceeds.objects (h : Proceeds σ task queued manages σ') :
    σ'.mutexes = σ.mutexes ∧ σ'.semaphores = σ.semaphores ∧ σ'.condvars = σ.condvars := by
  cases h <;> exact ⟨rfl, rfl, rfl⟩

theorem Proceeds.resumeOf_eq {resume : Resume} {inner : TaskControlBlock}
    (h : Proceeds σ task (some resume) manages σ') (hinner : σ.tasks[task]? = some inner) :
    σ'.resumeOf task = some resume := by
  cases h
  simp [resumeOf, updateTask, hinner]

theorem Acts.effect (h : Acts σ es manages σ') : Effect σ σ' es := by
  obtain ⟨hcur, hinner, hoperates, hproceeds⟩ := h
  obtain ⟨hmutexes, hsemaphores, hcondvars⟩ := hproceeds.objects
  cases hoperates with
  | nothing | addTimer => exact .quiet hmutexes hsemaphores hcondvars
  | checkTimer hcheck =>
    obtain ⟨timers, woken, rfl⟩ := checkTimer_frame hcheck
    exact .quiet hmutexes hsemaphores hcondvars
  | newMutex hnew => exact .newMutex hnew hmutexes hsemaphores hcondvars
  | newSemaphore resCount => exact .newSemaphore resCount hmutexes hsemaphores hcondvars
  | newCondvar => exact .newCondvar hmutexes hsemaphores hcondvars
  | mutex _ hold hdoes => exact .mutex hold hdoes hmutexes hsemaphores hcondvars
  | semaphore _ hold hdoes => exact .semaphore hold hdoes hmutexes hsemaphores hcondvars
  | signal _ hold hdoes => exact .signal hold hdoes hmutexes hsemaphores hcondvars
  | @wait mutex _ _ _ old' _ _ hold hdoes _ hold' =>
    exact .wait hold hdoes hold' (.wait _ mutex old'.waitQueue) hmutexes hsemaphores hcondvars
      (hproceeds.resumeOf_eq hinner)

theorem effect_runTasks (σ : Kernel) : Effect σ σ.runTasks [] ∧ Frame σ σ.runTasks := by
  rw [runTasks]
  split
  · exact ⟨.quiet rfl rfl rfl, frame_of_eq rfl rfl⟩
  · next next readyQueue hready =>
    refine ⟨.quiet rfl rfl rfl, ?_, threadOf_modify rfl fun _ => ⟨rfl, rfl, rfl⟩, rfl⟩
    intro task resume _ hresume
    obtain ⟨inner, hinner, rfl⟩ := map_eq_some_iff.mp hresume
    by_cases h : next = task <;> simp [resumeOf, updateTask, h, hinner]

/-- What is known of a step: its effect on the objects, and that a step which does
not manage threads leaves them as they are. -/
structure Observed (σ σ' : Kernel) (es : List SyncEvent) (manages : Bool) : Prop where
  effect : Effect σ σ' es
  resume : KeepsResume σ σ'
  frame : manages = false → Frame σ σ'

theorem Acts.observed (h : Acts σ es manages σ') : Observed σ σ' es manages := by
  have heffect := h.effect
  obtain ⟨hcur, hinner, hoperates, hproceeds⟩ := h
  have hframe := hoperates.frame
  have hcur₁ := hoperates.current.trans hcur
  refine ⟨heffect, fun other resume hne hresume => ?_, fun hmanages => ?_⟩
  · have hkeeps := hproceeds.keepsResume hcur₁
    exact hkeeps other resume (hoperates.current ▸ hne) (hframe.resume other resume hne hresume)
  · subst hmanages
    exact hframe.trans hoperates.current (hproceeds.frame hcur₁)

theorem Chosen.observed {choice : Choice} (h : Chosen σ choice σ') :
    Observed σ σ' (σ.syncEvents choice σ') choice.managesThreads := by
  by_cases hrun : choice = .runTasks
  · subst hrun
    cases h with
    | runTasks hidle =>
      obtain ⟨heffect, hframe⟩ := effect_runTasks σ
      exact ⟨heffect, hframe.resume, fun _ => hframe⟩
  · exact (h.acts hrun).observed

theorem Emits.effect (h : Emits σ es σ') : Effect σ σ' es ∧ KeepsResume σ σ' := by
  obtain ⟨choice, hchosen, rfl⟩ := h
  exact ⟨hchosen.observed.effect, hchosen.observed.resume⟩

/-! ## The history of one object -/

/-- The events of one mutex. -/
def mutexHistory (mutex : Nat) (trace : List SyncEvent) : List MutexEvent :=
  trace.filterMap (·.onMutex mutex)

def semaphoreHistory (semaphore : Nat) (trace : List SyncEvent) : List SemaphoreEvent :=
  trace.filterMap (·.onSemaphore semaphore)

def condvarHistory (condvar : Nat) (trace : List SyncEvent) : List CondvarEvent :=
  trace.filterMap (·.onCondvar condvar)

@[simp] theorem mutexHistory_nil (mutex : Nat) : mutexHistory mutex [] = [] := rfl

@[simp] theorem mutexHistory_append (mutex : Nat) (trace trace' : List SyncEvent) :
    mutexHistory mutex (trace ++ trace') =
      mutexHistory mutex trace ++ mutexHistory mutex trace' :=
  filterMap_append

@[simp] theorem mutexHistory_mutex (mutex mutex' : Nat) (event : MutexEvent)
    (trace : List SyncEvent) : mutexHistory mutex (.mutex mutex' event :: trace) =
      (if mutex' = mutex then [event] else []) ++ mutexHistory mutex trace := by
  by_cases h : mutex' = mutex <;> simp [mutexHistory, SyncEvent.onMutex, h]

@[simp] theorem mutexHistory_semaphore (mutex semaphore : Nat) (event : SemaphoreEvent)
    (trace : List SyncEvent) :
    mutexHistory mutex (.semaphore semaphore event :: trace) = mutexHistory mutex trace := rfl

@[simp] theorem mutexHistory_condvar (mutex condvar : Nat) (event : CondvarEvent)
    (trace : List SyncEvent) :
    mutexHistory mutex (.condvar condvar event :: trace) = mutexHistory mutex trace := rfl

@[simp] theorem semaphoreHistory_nil (semaphore : Nat) : semaphoreHistory semaphore [] = [] := rfl

@[simp] theorem semaphoreHistory_semaphore (semaphore semaphore' : Nat) (event : SemaphoreEvent)
    (trace : List SyncEvent) : semaphoreHistory semaphore (.semaphore semaphore' event :: trace) =
      (if semaphore' = semaphore then [event] else []) ++ semaphoreHistory semaphore trace := by
  by_cases h : semaphore' = semaphore <;> simp [semaphoreHistory, SyncEvent.onSemaphore, h]

@[simp] theorem condvarHistory_nil (condvar : Nat) : condvarHistory condvar [] = [] := rfl

@[simp] theorem condvarHistory_mutex (condvar mutex : Nat) (event : MutexEvent)
    (trace : List SyncEvent) :
    condvarHistory condvar (.mutex mutex event :: trace) = condvarHistory condvar trace := rfl

@[simp] theorem condvarHistory_condvar (condvar condvar' : Nat) (event : CondvarEvent)
    (trace : List SyncEvent) : condvarHistory condvar (.condvar condvar' event :: trace) =
      (if condvar' = condvar then [event] else []) ++ condvarHistory condvar trace := by
  by_cases h : condvar' = condvar <;> simp [condvarHistory, SyncEvent.onCondvar, h]

theorem Effect.mutex_projects (h : Effect σ σ' es) (mutex : Nat) :
    Projects Mutex.IsNew Mutex.Does σ.mutexes[mutex]? (mutexHistory mutex es)
      σ'.mutexes[mutex]? := by
  cases h with
  | quiet hmutexes => exact hmutexes ▸ projects_refl _
  | newMutex hnew hmutexes => exact hmutexes ▸ projects_append hnew mutex
  | newSemaphore resCount hmutexes => exact hmutexes ▸ projects_refl _
  | newCondvar hmutexes => exact hmutexes ▸ projects_refl _
  | semaphore hold hdoes hmutexes => exact hmutexes ▸ projects_refl _
  | signal hold hdoes hmutexes => exact hmutexes ▸ projects_refl _
  | mutex hold hdoes hmutexes =>
    rw [hmutexes, mutexHistory_mutex, mutexHistory_nil, append_nil]
    exact projects_set hold hdoes mutex
  | wait hold hdoes hold' hdoes' hmutexes =>
    rw [hmutexes, mutexHistory_mutex, mutexHistory_condvar, mutexHistory_nil, append_nil]
    exact projects_set hold hdoes mutex

theorem Effect.semaphore_projects (h : Effect σ σ' es) (semaphore : Nat) :
    Projects (∃ resCount, · = Semaphore.new resCount) Semaphore.Does σ.semaphores[semaphore]?
      (semaphoreHistory semaphore es) σ'.semaphores[semaphore]? := by
  cases h with
  | quiet _ hsemaphores => exact hsemaphores ▸ projects_refl _
  | newMutex _ _ hsemaphores => exact hsemaphores ▸ projects_refl _
  | newSemaphore resCount _ hsemaphores =>
    exact hsemaphores ▸ projects_append ⟨resCount, rfl⟩ semaphore
  | newCondvar _ hsemaphores => exact hsemaphores ▸ projects_refl _
  | mutex _ _ _ hsemaphores => exact hsemaphores ▸ projects_refl _
  | signal _ _ _ hsemaphores => exact hsemaphores ▸ projects_refl _
  | wait _ _ _ _ _ hsemaphores => exact hsemaphores ▸ projects_refl _
  | semaphore hold hdoes _ hsemaphores =>
    rw [hsemaphores, semaphoreHistory_semaphore, semaphoreHistory_nil, append_nil]
    exact projects_set hold hdoes semaphore

theorem Effect.condvar_projects (h : Effect σ σ' es) (condvar : Nat) :
    Projects (· = Condvar.new) Condvar.Does σ.condvars[condvar]? (condvarHistory condvar es)
      σ'.condvars[condvar]? := by
  cases h with
  | quiet _ _ hcondvars => exact hcondvars ▸ projects_refl _
  | newMutex _ _ _ hcondvars => exact hcondvars ▸ projects_refl _
  | newSemaphore _ _ _ hcondvars => exact hcondvars ▸ projects_refl _
  | newCondvar _ _ hcondvars =>
    rw [hcondvars]
    refine projects_append ?_ condvar
    rfl
  | mutex _ _ _ _ hcondvars => exact hcondvars ▸ projects_refl _
  | semaphore _ _ _ _ hcondvars => exact hcondvars ▸ projects_refl _
  | signal hold hdoes _ _ hcondvars =>
    rw [hcondvars, condvarHistory_condvar, condvarHistory_nil, append_nil]
    exact projects_set hold hdoes condvar
  | wait _ _ hold' hdoes' _ _ hcondvars =>
    rw [hcondvars, condvarHistory_mutex, condvarHistory_condvar, condvarHistory_nil, append_nil]
    exact projects_set hold' hdoes' condvar

variable {trace : List SyncEvent}

theorem Traced.mutex_run (h : Traced trace σ) {mutex : Nat} {value : Mutex}
    (hvalue : σ.mutexes[mutex]? = some value) :
    Run Mutex.IsNew Mutex.Does (mutexHistory mutex trace) value := by
  refine (Run.project (fun σ : Kernel => σ.mutexes[mutex]?) ?_ ?_ h).2 value hvalue
  · rintro _ rfl value hvalue
    simp [boot] at hvalue
  · exact fun _ _ _ hstep => hstep.effect.1.mutex_projects mutex

theorem Traced.condvar_run (h : Traced trace σ) {condvar : Nat} {value : Condvar}
    (hvalue : σ.condvars[condvar]? = some value) :
    Run (· = Condvar.new) Condvar.Does (condvarHistory condvar trace) value := by
  refine (Run.project (fun σ : Kernel => σ.condvars[condvar]?) ?_ ?_ h).2 value hvalue
  · rintro _ rfl value hvalue
    simp [boot] at hvalue
  · exact fun _ _ _ hstep => hstep.effect.1.condvar_projects condvar

theorem semaphore_run {σ₀ σ₁ : Kernel} {resCount id : Nat}
    (hcreate : σ₀.sysSemaphoreCreate resCount = some (σ₁, id))
    (h : Run (· = σ₁) Emits trace σ) :
    ∃ value, σ.semaphores[σ₀.semaphores.length]? = some value ∧
      Run (· = Semaphore.new resCount) Semaphore.Does
        (semaphoreHistory σ₀.semaphores.length trace) value := by
  refine Run.project_from (fun σ : Kernel => σ.semaphores[σ₀.semaphores.length]?) ?_
    (fun _ _ _ hstep => hstep.effect.1.semaphore_projects _) h
  rintro _ rfl
  simp only [sysSemaphoreCreate, do_eq_some_iff, Option.some.injEq, Prod.mk.injEq] at hcreate
  obtain ⟨⟨index, process⟩, -, rfl, -⟩ := hcreate
  simp [updateProcess]

end Kernel

end RCore.Task
