import RCore.Lib.History
import RCore.Task.Threads
import RCore.Lib.Outcome

/-!
# What the threads observe

Every step of the kernel is given the events that can be seen in it: which thread
got, waited for or released what, and which thread was made ready by it.  The
events are read off the states before and after the step.
-/

namespace RCore.Task

open RCore.Lib.History Option

inductive MutexEvent where
  /-- `lock` returns to the thread that called it -/
  | acquire (task : Nat)
  /-- `lock` leaves the thread that called it blocked -/
  | block (task : Nat)
  | unlock (task : Nat) (woken : Option Nat)
  deriving DecidableEq, Repr

inductive SemaphoreEvent where
  | up (task : Nat) (woken : Option Nat)
  /-- `granted` tells whether `down` returns without blocking -/
  | down (task : Nat) (granted : Bool)
  deriving DecidableEq, Repr

inductive CondvarEvent where
  /-- `wait` has released the mutex and leaves the thread blocked -/
  | wait (task mutex : Nat)
  | signal (task : Nat) (woken : Option Nat)
  deriving DecidableEq, Repr

inductive SyncEvent where
  | mutex (mutex : Nat) (event : MutexEvent)
  | semaphore (semaphore : Nat) (event : SemaphoreEvent)
  | condvar (condvar : Nat) (event : CondvarEvent)
  deriving DecidableEq, Repr

def SyncEvent.onMutex (mutex : Nat) : SyncEvent → Option MutexEvent
  | .mutex mutex' event => if mutex' = mutex then some event else none
  | _ => none

def SyncEvent.onSemaphore (semaphore : Nat) : SyncEvent → Option SemaphoreEvent
  | .semaphore semaphore' event => if semaphore' = semaphore then some event else none
  | _ => none

def SyncEvent.onCondvar (condvar : Nat) : SyncEvent → Option CondvarEvent
  | .condvar condvar' event => if condvar' = condvar then some event else none
  | _ => none

namespace Kernel

/-- What decides a step. -/
inductive Choice where
  | runTasks
  | syscall (call : Syscall)
  | timer (nowMs : Nat)
  | lock (mutex : Nat)
  | pollAgain
  | pollDone

/-- The steps of the kernel by their choices. -/
inductive Chosen : Kernel → Choice → Kernel → Prop where
  | runTasks {σ : Kernel} (hidle : σ.current = none) : Chosen σ .runTasks σ.runTasks
  | syscall {σ σ' : Kernel} {call : Syscall} (hat : σ.AtResume .user)
      (h : σ.syscall call = some σ') : Chosen σ (.syscall call) σ'
  | timer {σ σ₁ σ' : Kernel} {nowMs : Nat} (hat : σ.AtResume .user)
      (hcheck : CheckTimer nowMs σ σ₁) (h : σ₁.suspendCurrentAndRunNext .user = some σ') :
      Chosen σ (.timer nowMs) σ'
  | lock {σ σ' : Kernel} {mutex : Nat} (hat : σ.AtResume (.lock mutex))
      (h : σ.lock mutex = some σ') : Chosen σ (.lock mutex) σ'
  | pollAgain {σ σ' : Kernel} (hat : σ.AtResume .poll)
      (h : σ.suspendCurrentAndRunNext .poll = some σ') : Chosen σ .pollAgain σ'
  | pollDone {σ : Kernel} {task : Nat} (hat : σ.AtResume .poll) (hcur : σ.current = some task) :
      Chosen σ .pollDone (σ.updateTask task fun inner => { inner with resume := .user })

/-- Steps with what can be observed of them. -/
def Labelled {E : Type} (label : Kernel → Choice → Kernel → List E) (σ : Kernel) (es : List E)
    (σ' : Kernel) : Prop :=
  ∃ choice, Chosen σ choice σ' ∧ es = label σ choice σ'

theorem AtResume.exists_task {σ : Kernel} {resume : Resume} (h : σ.AtResume resume) :
    ∃ task inner, σ.current = some task ∧ σ.tasks[task]? = some inner ∧
      inner.resume = resume := by
  obtain ⟨task, inner, htask, hresume⟩ := h
  simp only [currentTask, do_eq_some_iff, Option.some.injEq] at htask
  obtain ⟨_, hcur, _, hinner, heq⟩ := htask
  obtain ⟨rfl, rfl⟩ := Prod.mk.inj heq
  exact ⟨_, _, hcur, hinner, hresume⟩

theorem Chosen.step {σ σ' : Kernel} {choice : Choice} (h : Chosen σ choice σ') : Step σ σ' := by
  cases h with
  | runTasks hidle => exact .runTasks hidle
  | syscall hat h => exact .syscall _ hat h
  | timer hat hcheck h => exact .timer _ hat hcheck h
  | lock hat h => exact .lock _ hat h
  | pollAgain hat h => exact .pollAgain hat h
  | pollDone hat hcur => exact .pollDone hat hcur

theorem Step.exists_chosen {σ σ' : Kernel} (h : Step σ σ') : ∃ choice, Chosen σ choice σ' := by
  cases h with
  | runTasks hidle => exact ⟨_, .runTasks hidle⟩
  | syscall call hat h => exact ⟨_, .syscall hat h⟩
  | timer nowMs hat hcheck h => exact ⟨_, .timer hat hcheck h⟩
  | lock mutex hat h => exact ⟨_, .lock hat h⟩
  | pollAgain hat h => exact ⟨_, .pollAgain hat h⟩
  | pollDone hat hcur => exact ⟨_, .pollDone hat hcur⟩

section Labels

variable {E : Type} {label : Kernel → Choice → Kernel → List E} {σ : Kernel} {trace : List E}

theorem reachable_of_run (h : Run (· = boot) (Labelled label) trace σ) : Reachable σ := by
  induction h with
  | start h => exact h ▸ Reachable.boot
  | step h hstep ih =>
    obtain ⟨choice, hchosen, -⟩ := hstep
    exact .step ih hchosen.step

end Labels

/-! ## Running the kernel -/

/-- The step for a choice, as a function; the timer is left out. -/
def perform (σ : Kernel) : Choice → Option Kernel
  | .runTasks => if σ.current = none then some σ.runTasks else none
  | .syscall call =>
      match σ.currentTask with
      | some (_, inner) => if inner.resume = .user then σ.syscall call else none
      | none => none
  | .lock mutex =>
      match σ.currentTask with
      | some (_, inner) => if inner.resume = .lock mutex then σ.lock mutex else none
      | none => none
  | _ => none

/-- A run given by its choices, with what can be observed of it. -/
def performAll {E : Type} (label : Kernel → Choice → Kernel → List E) (σ : Kernel) :
    List Choice → Option (List E × Kernel)
  | [] => some ([], σ)
  | choice :: choices => do
      let σ₁ ← σ.perform choice
      let (trace, σ') ← σ₁.performAll label choices
      some (label σ choice σ₁ ++ trace, σ')

theorem chosen_of_perform {σ σ' : Kernel} {choice : Choice} (h : σ.perform choice = some σ') :
    Chosen σ choice σ' := by
  cases choice with
  | runTasks =>
    simp only [perform, ite_none_right_eq_some, Option.some.injEq] at h
    obtain ⟨hidle, rfl⟩ := h
    exact .runTasks hidle
  | syscall call =>
    simp only [perform] at h
    split at h
    · next task inner htask =>
      obtain ⟨hresume, hcall⟩ := ite_none_right_eq_some.mp h
      exact .syscall ⟨task, inner, htask, hresume⟩ hcall
    · simp at h
  | lock mutex =>
    simp only [perform] at h
    split at h
    · next task inner htask =>
      obtain ⟨hresume, hlock⟩ := ite_none_right_eq_some.mp h
      exact .lock ⟨task, inner, htask, hresume⟩ hlock
    · simp at h
  | timer nowMs => simp [perform] at h
  | pollAgain => simp [perform] at h
  | pollDone => simp [perform] at h

theorem run_of_performAll {E : Type} {label : Kernel → Choice → Kernel → List E}
    {start : Kernel → Prop} {σ σ' : Kernel} {past trace : List E}
    (hrun : Run start (Labelled label) past σ) (choices : List Choice)
    (h : σ.performAll label choices = some (trace, σ')) :
    Run start (Labelled label) (past ++ trace) σ' := by
  induction choices generalizing σ past trace with
  | nil =>
    simp only [performAll, Option.some.injEq, Prod.mk.injEq] at h
    obtain ⟨rfl, rfl⟩ := h
    rwa [List.append_nil]
  | cons choice choices ih =>
    simp only [performAll, do_eq_some_iff, Option.some.injEq, Prod.mk.injEq] at h
    obtain ⟨σ₁, hperform, ⟨rest, _⟩, hrest, rfl, rfl⟩ := h
    rw [← List.append_assoc]
    exact ih (.step hrun ⟨choice, chosen_of_perform hperform, rfl⟩) hrest

/-! ## Synchronisation events -/

/-- The thread that is put into the ready queue between two states. -/
def woken (σ σ' : Kernel) : Option Nat :=
  (σ'.readyQueue.drop σ.readyQueue.length).head?

/-- The events of one pass of `lock` that ends in `σ'`: the thread still has the
processor, or it is blocked, or it will try again. -/
def lockEvents (σ' : Kernel) (task mutex : Nat) : List SyncEvent :=
  if σ'.current.isSome then [.mutex mutex (.acquire task)]
  else if σ'.tasks[task]?.any (·.taskStatus = .blocking) then [.mutex mutex (.block task)]
  else []

/-- The events of a system call of `task`, a thread of `process`. -/
def syscallEvents (σ σ' : Kernel) (task : Nat) (process : Process) : Syscall → List SyncEvent
  | .mutexLock mutexId =>
      (slot process.mutexList mutexId).toList.flatMap (σ'.lockEvents task)
  | .mutexUnlock mutexId =>
      (slot process.mutexList mutexId).toList.map fun mutex =>
        .mutex mutex (.unlock task (σ.woken σ'))
  | .semaphoreUp semId =>
      (slot process.semaphoreList semId).toList.map fun semaphore =>
        .semaphore semaphore (.up task (σ.woken σ'))
  | .semaphoreDown semId =>
      (slot process.semaphoreList semId).toList.map fun semaphore =>
        .semaphore semaphore (.down task σ'.current.isSome)
  | .condvarSignal condvarId =>
      (slot process.condvarList condvarId).toList.map fun condvar =>
        .condvar condvar (.signal task (σ.woken σ'))
  | .condvarWait condvarId mutexId =>
      (slot process.condvarList condvarId).toList.flatMap fun condvar =>
        (slot process.mutexList mutexId).toList.flatMap fun mutex =>
          [.mutex mutex (.unlock task (σ.woken σ')), .condvar condvar (.wait task mutex)]
  | _ => []

def events (σ σ' : Kernel) (call : Syscall) : List SyncEvent :=
  match σ.currentTask, σ.currentProcess with
  | some (task, _), some (_, process) => σ.syscallEvents σ' task process call
  | _, _ => []

/-- The events of a pass of `lock` or of a system call. -/
def syncEvents (σ : Kernel) (choice : Choice) (σ' : Kernel) : List SyncEvent :=
  match choice with
  | .syscall call => σ.events σ' call
  | .lock mutex => σ.current.toList.flatMap fun task => σ'.lockEvents task mutex
  | _ => []

/-- The steps of the kernel with the events they emit. -/
def Emits : Kernel → List SyncEvent → Kernel → Prop :=
  Labelled syncEvents

/-- The states the kernel reaches, each with the events on the way to it. -/
def Traced : List SyncEvent → Kernel → Prop :=
  Run (· = boot) Emits

variable {σ : Kernel} {trace : List SyncEvent}

theorem Traced.reachable (h : Traced trace σ) : Reachable σ :=
  reachable_of_run h

theorem traced_of_performAll (choices : List Choice)
    (h : boot.performAll syncEvents choices = some (trace, σ)) : Traced trace σ := by
  have hboot : Traced [] boot := .start rfl
  exact run_of_performAll hboot choices h

end Kernel

end RCore.Task
