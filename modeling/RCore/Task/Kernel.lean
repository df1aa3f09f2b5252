import RCore.Task.Id
import Mathlib.Algebra.Ring.Int.Defs
import Mathlib.Data.Nat.Bitwise

/-!
# Threads, synchronisation objects and the scheduler

The part of the kernel state that the scheduler and the synchronisation
primitives work on.  Objects shared through `Arc` live in lists and are named by
their index; they are never removed, so an index stays valid.  `none` is a kernel
panic.
-/

namespace RCore.Task

inductive TaskStatus where
  | ready
  | running
  | blocking
  deriving DecidableEq, Repr

/-- What a thread does next when it has the processor.  It stands for the saved
`task_cx`: a thread switched away inside a system call goes on inside it. -/
inductive Resume where
  /-- in user mode, or on the way back to it -/
  | user
  /-- about to run `lock` of a mutex, at the top of its loop -/
  | lock (mutex : Nat)
  /-- in the waiting loop of a pipe or of `Stdin` -/
  | poll
  deriving DecidableEq, Repr

/-- `res` is the thread identifier held by `TaskUserRes`. -/
structure TaskControlBlock where
  process : Nat
  res : Option Nat
  taskStatus : TaskStatus
  exitCode : Option Int
  resume : Resume
  deriving DecidableEq, Repr

inductive Mutex where
  | spin (locked : Bool)
  | blocking (locked : Bool) (waitQueue : List Nat)

def Mutex.waitQueue : Mutex → List Nat
  | spin _ => []
  | blocking _ waitQueue => waitQueue

structure Semaphore where
  count : Int
  waitQueue : List Nat

structure Condvar where
  waitQueue : List Nat

structure TimerCondVar where
  expireMs : Nat
  task : Nat
  deriving DecidableEq, Repr

structure Process where
  isZombie : Bool
  exitCode : Int
  tasks : List (Option Nat)
  taskResAllocator : RecycleAllocator
  mutexList : List (Option Nat)
  semaphoreList : List (Option Nat)
  condvarList : List (Option Nat)

structure Kernel where
  tasks : List TaskControlBlock
  processes : List Process
  mutexes : List Mutex
  semaphores : List Semaphore
  condvars : List Condvar
  current : Option Nat
  readyQueue : List Nat
  timers : List TimerCondVar

/-- The value of an integer as an `isize`. -/
def wrapIsize (x : Int) : Int :=
  Int.bmod x (2 ^ 64)

theorem wrapIsize_eq {x : Int} (hlow : -2 ^ 63 ≤ x) (hhigh : x < 2 ^ 63) : wrapIsize x = x := by
  rw [wrapIsize]
  exact Int.bmod_eq_of_le (by omega) (by omega)

def TaskControlBlock.new (process tid : Nat) : TaskControlBlock where
  process := process
  res := some tid
  taskStatus := .ready
  exitCode := none
  resume := .user

def Semaphore.new (resCount : Nat) : Semaphore where
  count := wrapIsize resCount
  waitQueue := []

def Condvar.new : Condvar where
  waitQueue := []

/-- The object with number `id` of a process: the index and the `unwrap` may panic. -/
def slot (list : List (Option Nat)) (id : Nat) : Option Nat :=
  list[id]?.join

/-- Put an object into the first free slot, or into a new one; with its number. -/
def insertSlot (list : List (Option Nat)) (object : Nat) : List (Option Nat) × Nat :=
  match list.findIdx? Option.isNone with
  | some id => (list.set id (some object), id)
  | none => (list ++ [some object], list.length)

namespace Kernel

def updateTask (σ : Kernel) (task : Nat) (f : TaskControlBlock → TaskControlBlock) : Kernel :=
  { σ with tasks := σ.tasks.modify task f }

def updateProcess (σ : Kernel) (process : Nat) (f : Process → Process) : Kernel :=
  { σ with processes := σ.processes.modify process f }

def setMutex (σ : Kernel) (mutex : Nat) (value : Mutex) : Kernel :=
  { σ with mutexes := σ.mutexes.set mutex value }

def setSemaphore (σ : Kernel) (semaphore : Nat) (value : Semaphore) : Kernel :=
  { σ with semaphores := σ.semaphores.set semaphore value }

def setCondvar (σ : Kernel) (condvar : Nat) (value : Condvar) : Kernel :=
  { σ with condvars := σ.condvars.set condvar value }

/-- The control block of the current thread, with its index. -/
def currentTask (σ : Kernel) : Option (Nat × TaskControlBlock) := do
  let task ← σ.current
  let inner ← σ.tasks[task]?
  some (task, inner)

def currentProcess (σ : Kernel) : Option (Nat × Process) := do
  let (_, inner) ← σ.currentTask
  let process ← σ.processes[inner.process]?
  some (inner.process, process)

/-! ## The scheduler -/

def addTask (σ : Kernel) (task : Nat) : Kernel :=
  { σ with readyQueue := σ.readyQueue ++ [task] }

/-- One round of the loop of `run_tasks`.  The loop runs on the idle stack, which
has the processor exactly when there is no current thread. -/
def runTasks (σ : Kernel) : Kernel :=
  match σ.readyQueue with
  | [] => σ
  | task :: readyQueue =>
      { σ with readyQueue := readyQueue, current := some task }.updateTask task
        fun inner => { inner with taskStatus := .running }

/-- The caller goes on with `resume` when it is scheduled again. -/
def suspendCurrentAndRunNext (σ : Kernel) (resume : Resume) : Option Kernel := do
  let task ← σ.current
  some (({ σ with current := none }.updateTask task
    fun inner => { inner with taskStatus := .ready, resume := resume }).addTask task)

def blockCurrentAndRunNext (σ : Kernel) (resume : Resume) : Option Kernel := do
  let task ← σ.current
  some ({ σ with current := none }.updateTask task
    fun inner => { inner with taskStatus := .blocking, resume := resume })

/-- Some thread of the process still has its `TaskUserRes`. -/
def holdsRes (σ : Kernel) (process : Process) : Bool :=
  process.tasks.any fun entry =>
    match entry.bind (σ.tasks[·]?) with
    | some inner => inner.res.isSome
    | none => false

/-- Dropping the `TaskUserRes` gives the thread identifier back.  A main thread
that finds another thread with a `TaskUserRes` drops it while the process is
borrowed, and the initial process borrows itself twice: both panic.  What happens
to the process tree is the subject of `RCore.Task.ProcessTree`. -/
def exitCurrentAndRunNext (σ : Kernel) (exitCode : Int) : Option Kernel := do
  let (task, inner) ← σ.currentTask
  let process ← σ.processes[inner.process]?
  let tid ← inner.res
  let allocator ← process.taskResAllocator.dealloc tid
  let σ := ({ σ with current := none }.updateTask task
      fun inner => { inner with exitCode := some exitCode, res := none }).updateProcess
        inner.process fun process => { process with taskResAllocator := allocator }
  if tid = 0 then
    if inner.process = 0 ∨ σ.holdsRes process then none
    else
      some (σ.updateProcess inner.process
        fun process => { process with isZombie := true, exitCode := exitCode })
  else some σ

/-! ## Mutexes -/

/-- One pass of `lock` by the current thread: it gets the mutex, or it waits. -/
def lock (σ : Kernel) (mutex : Nat) : Option Kernel := do
  let task ← σ.current
  match ← σ.mutexes[mutex]? with
  | .spin true => σ.suspendCurrentAndRunNext (.lock mutex)
  | .spin false =>
      some ((σ.setMutex mutex (.spin true)).updateTask task
        fun inner => { inner with resume := .user })
  | .blocking true waitQueue =>
      (σ.setMutex mutex (.blocking true (waitQueue ++ [task]))).blockCurrentAndRunNext .user
  | .blocking false waitQueue =>
      some ((σ.setMutex mutex (.blocking true waitQueue)).updateTask task
        fun inner => { inner with resume := .user })

def unlock (σ : Kernel) (mutex : Nat) : Option Kernel := do
  match ← σ.mutexes[mutex]? with
  | .spin _ => some (σ.setMutex mutex (.spin false))
  | .blocking false _ => none
  | .blocking true [] => some (σ.setMutex mutex (.blocking false []))
  | .blocking true (wakingTask :: waitQueue) =>
      some ((σ.setMutex mutex (.blocking true waitQueue)).addTask wakingTask)

/-! ## Semaphores -/

def up (σ : Kernel) (semaphore : Nat) : Option Kernel := do
  let inner ← σ.semaphores[semaphore]?
  let count := wrapIsize (inner.count + 1)
  match inner.waitQueue with
  | task :: waitQueue =>
      if count ≤ 0 then some ((σ.setSemaphore semaphore ⟨count, waitQueue⟩).addTask task)
      else some (σ.setSemaphore semaphore ⟨count, inner.waitQueue⟩)
  | [] => some (σ.setSemaphore semaphore ⟨count, []⟩)

def down (σ : Kernel) (semaphore : Nat) : Option Kernel := do
  let task ← σ.current
  let inner ← σ.semaphores[semaphore]?
  let count := wrapIsize (inner.count - 1)
  if count < 0 then
    (σ.setSemaphore semaphore ⟨count, inner.waitQueue ++ [task]⟩).blockCurrentAndRunNext .user
  else some (σ.setSemaphore semaphore ⟨count, inner.waitQueue⟩)

/-! ## Condition variables -/

def signal (σ : Kernel) (condvar : Nat) : Option Kernel := do
  match (← σ.condvars[condvar]?).waitQueue with
  | task :: waitQueue => some ((σ.setCondvar condvar ⟨waitQueue⟩).addTask task)
  | [] => some σ

/-- `wait` up to the point where the thread is switched away; it then locks the
mutex again. -/
def wait (σ : Kernel) (condvar mutex : Nat) : Option Kernel := do
  let σ ← σ.unlock mutex
  let task ← σ.current
  let inner ← σ.condvars[condvar]?
  (σ.setCondvar condvar ⟨inner.waitQueue ++ [task]⟩).blockCurrentAndRunNext (.lock mutex)

/-! ## Timers -/

def addTimer (σ : Kernel) (expireMs task : Nat) : Kernel :=
  { σ with timers := ⟨expireMs, task⟩ :: σ.timers }

end Kernel

/-- The number by which `TimerCondVar` is ordered. -/
def TimerCondVar.key (timer : TimerCondVar) : Int :=
  wrapIsize (-wrapIsize timer.expireMs)

/-- What `BinaryHeap::peek` may return: a greatest element. -/
def IsPeek (timers : List TimerCondVar) (timer : TimerCondVar) : Prop :=
  timer ∈ timers ∧ ∀ other ∈ timers, other.key ≤ timer.key

/-- The loop of `check_timer`.  Among equal greatest elements the heap may return
any, so it is a relation. -/
inductive CheckTimer (currentMs : Nat) : Kernel → Kernel → Prop where
  | empty {σ : Kernel} (hempty : σ.timers = []) : CheckTimer currentMs σ σ
  | stop {σ : Kernel} {timer : TimerCondVar} (hpeek : IsPeek σ.timers timer)
      (hlater : ¬timer.expireMs ≤ currentMs) : CheckTimer currentMs σ σ
  | pop {σ σ' : Kernel} {timer : TimerCondVar} (hpeek : IsPeek σ.timers timer)
      (hdue : timer.expireMs ≤ currentMs)
      (hrest : CheckTimer currentMs
        ({ σ with timers := σ.timers.erase timer }.addTask timer.task) σ') :
      CheckTimer currentMs σ σ'

end RCore.Task
