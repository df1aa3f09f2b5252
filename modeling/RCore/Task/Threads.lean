import RCore.Task.Kernel

/-!
# Runs of the threads

The system calls on threads and synchronisation objects, and the step relation of
the kernel on one processor.  Interrupts are off inside the kernel, so a step is
what runs between two points where the processor may change hands.
-/

namespace RCore.Task

inductive Syscall where
  | yield
  | exit (exitCode : Int)
  | fork
  | threadCreate
  | waittid (tid : Nat)
  | sleep (nowMs ms : Nat)
  | mutexCreate (blocking : Bool)
  | mutexLock (mutexId : Nat)
  | mutexUnlock (mutexId : Nat)
  | semaphoreCreate (resCount : Nat)
  | semaphoreUp (semId : Nat)
  | semaphoreDown (semId : Nat)
  | condvarCreate
  | condvarSignal (condvarId : Nat)
  | condvarWait (condvarId mutexId : Nat)
  /-- `read` or `write` on a pipe, or `read` on `Stdin`, that has to wait -/
  | fileWait

namespace Kernel

/-- The new thread and the thread identifier that is returned. -/
def sysThreadCreate (σ : Kernel) : Option (Kernel × Nat) := do
  let (_, inner) ← σ.currentTask
  let process ← σ.processes[inner.process]?
  let _ ← inner.res
  let (newTaskTid, allocator) := process.taskResAllocator.alloc
  let newTask := σ.tasks.length
  let tasks := process.tasks ++ List.replicate (newTaskTid + 1 - process.tasks.length) none
  let σ := { σ with tasks := σ.tasks ++ [TaskControlBlock.new inner.process newTaskTid] }
  some ((σ.addTask newTask).updateProcess inner.process fun process =>
    { process with
      taskResAllocator := allocator
      tasks := tasks.set newTaskTid (some newTask) }, newTaskTid)

/-- A new process whose only thread is a copy of the caller, the only thread of
its process. -/
def sysFork (σ : Kernel) : Option Kernel := do
  let (_, process) ← σ.currentProcess
  if process.tasks.length ≠ 1 then none
  else
    let mainTask ← slot process.tasks 0
    let mainInner ← σ.tasks[mainTask]?
    let _ ← mainInner.res
    let (tid, allocator) := RecycleAllocator.new.alloc
    let newTask := σ.tasks.length
    let child : Process :=
      { isZombie := false, exitCode := 0, tasks := [some newTask], taskResAllocator := allocator
        mutexList := [], semaphoreList := [], condvarList := [] }
    some ({ σ with
      tasks := σ.tasks ++ [TaskControlBlock.new σ.processes.length tid]
      processes := σ.processes ++ [child] }.addTask newTask)

def sysWaittid (σ : Kernel) (tid : Nat) : Option (Kernel × Int) := do
  let (_, inner) ← σ.currentTask
  let process ← σ.processes[inner.process]?
  let ownTid ← inner.res
  if ownTid = tid then some (σ, -1)
  else
    match ← process.tasks[tid]? with
    | none => some (σ, -1)
    | some waitedTask =>
        match (← σ.tasks[waitedTask]?).exitCode with
        | some exitCode =>
            some (σ.updateProcess inner.process fun process =>
              { process with tasks := process.tasks.set tid none }, exitCode)
        | none => some (σ, -2)

def sysSleep (σ : Kernel) (nowMs ms : Nat) : Option Kernel := do
  let task ← σ.current
  (σ.addTimer ((nowMs + ms) % 2 ^ 64) task).blockCurrentAndRunNext .user

def sysMutexCreate (σ : Kernel) (blocking : Bool) : Option (Kernel × Nat) := do
  let (index, process) ← σ.currentProcess
  let mutex := if blocking then Mutex.blocking false [] else .spin false
  let (mutexList, id) := insertSlot process.mutexList σ.mutexes.length
  some ({ σ with mutexes := σ.mutexes ++ [mutex] }.updateProcess index
    fun process => { process with mutexList := mutexList }, id)

def sysSemaphoreCreate (σ : Kernel) (resCount : Nat) : Option (Kernel × Nat) := do
  let (index, process) ← σ.currentProcess
  let (semaphoreList, id) := insertSlot process.semaphoreList σ.semaphores.length
  some ({ σ with semaphores := σ.semaphores ++ [Semaphore.new resCount] }.updateProcess index
    fun process => { process with semaphoreList := semaphoreList }, id)

def sysCondvarCreate (σ : Kernel) : Option (Kernel × Nat) := do
  let (index, process) ← σ.currentProcess
  let (condvarList, id) := insertSlot process.condvarList σ.condvars.length
  some ({ σ with condvars := σ.condvars ++ [Condvar.new] }.updateProcess index
    fun process => { process with condvarList := condvarList }, id)

def sysMutexLock (σ : Kernel) (mutexId : Nat) : Option Kernel := do
  let (_, process) ← σ.currentProcess
  σ.lock (← slot process.mutexList mutexId)

def sysMutexUnlock (σ : Kernel) (mutexId : Nat) : Option Kernel := do
  let (_, process) ← σ.currentProcess
  σ.unlock (← slot process.mutexList mutexId)

def sysSemaphoreUp (σ : Kernel) (semId : Nat) : Option Kernel := do
  let (_, process) ← σ.currentProcess
  σ.up (← slot process.semaphoreList semId)

def sysSemaphoreDown (σ : Kernel) (semId : Nat) : Option Kernel := do
  let (_, process) ← σ.currentProcess
  σ.down (← slot process.semaphoreList semId)

def sysCondvarSignal (σ : Kernel) (condvarId : Nat) : Option Kernel := do
  let (_, process) ← σ.currentProcess
  σ.signal (← slot process.condvarList condvarId)

def sysCondvarWait (σ : Kernel) (condvarId mutexId : Nat) : Option Kernel := do
  let (_, process) ← σ.currentProcess
  let condvar ← slot process.condvarList condvarId
  let mutex ← slot process.mutexList mutexId
  σ.wait condvar mutex

/-- A system call up to its return or the point where the caller is switched away. -/
def syscall (σ : Kernel) : Syscall → Option Kernel
  | .yield => σ.suspendCurrentAndRunNext .user
  | .exit exitCode => σ.exitCurrentAndRunNext exitCode
  | .fork => σ.sysFork
  | .threadCreate => σ.sysThreadCreate.map (·.1)
  | .waittid tid => (σ.sysWaittid tid).map (·.1)
  | .sleep nowMs ms => σ.sysSleep nowMs ms
  | .mutexCreate blocking => (σ.sysMutexCreate blocking).map (·.1)
  | .mutexLock mutexId => σ.sysMutexLock mutexId
  | .mutexUnlock mutexId => σ.sysMutexUnlock mutexId
  | .semaphoreCreate resCount => (σ.sysSemaphoreCreate resCount).map (·.1)
  | .semaphoreUp semId => σ.sysSemaphoreUp semId
  | .semaphoreDown semId => σ.sysSemaphoreDown semId
  | .condvarCreate => σ.sysCondvarCreate.map (·.1)
  | .condvarSignal condvarId => σ.sysCondvarSignal condvarId
  | .condvarWait condvarId mutexId => σ.sysCondvarWait condvarId mutexId
  | .fileWait => σ.suspendCurrentAndRunNext .poll

/-- The state after `add_initproc`: the main thread of the initial process is ready. -/
def boot : Kernel where
  tasks := [.new 0 0]
  processes :=
    [{ isZombie := false, exitCode := 0, tasks := [some 0]
       taskResAllocator := RecycleAllocator.new.alloc.2
       mutexList := [], semaphoreList := [], condvarList := [] }]
  mutexes := []
  semaphores := []
  condvars := []
  current := none
  readyQueue := [0]
  timers := []

/-- The current thread would go on with `resume`. -/
def AtResume (σ : Kernel) (resume : Resume) : Prop :=
  ∃ task inner, σ.currentTask = some (task, inner) ∧ inner.resume = resume

/-- A panic ends the run: there is no step for it.  A thread killed by a signal
exits on the way back to user mode, which is a step `syscall` with `exit`. -/
inductive Step : Kernel → Kernel → Prop where
  | runTasks {σ : Kernel} (hidle : σ.current = none) : Step σ σ.runTasks
  | syscall {σ σ' : Kernel} (call : Syscall) (hat : σ.AtResume .user)
      (h : σ.syscall call = some σ') : Step σ σ'
  | timer {σ σ₁ σ' : Kernel} (nowMs : Nat) (hat : σ.AtResume .user)
      (hcheck : CheckTimer nowMs σ σ₁) (h : σ₁.suspendCurrentAndRunNext .user = some σ') :
      Step σ σ'
  | lock {σ σ' : Kernel} (mutex : Nat) (hat : σ.AtResume (.lock mutex))
      (h : σ.lock mutex = some σ') : Step σ σ'
  | pollAgain {σ σ' : Kernel} (hat : σ.AtResume .poll)
      (h : σ.suspendCurrentAndRunNext .poll = some σ') : Step σ σ'
  | pollDone {σ : Kernel} {task : Nat} (hat : σ.AtResume .poll) (hcur : σ.current = some task) :
      Step σ (σ.updateTask task fun inner => { inner with resume := .user })

inductive Reachable : Kernel → Prop where
  | boot : Reachable boot
  | step {σ σ' : Kernel} (h : Reachable σ) (hstep : Step σ σ') : Reachable σ'

end Kernel

end RCore.Task
