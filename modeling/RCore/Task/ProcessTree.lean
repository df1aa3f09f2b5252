import RCore.Task.Kernel

/-!
# The process tree

Processes with one thread: `fork`, `exec`, `exit`, `kill` and `waitpid`.  A control
block is an object on the heap, named by its index; `none` is one that has been
freed.  `Arc` references to it are held by `PID2PCB`, by the children lists and, for
the initial process, by the static `INITPROC`.  None of these system calls gives up
the processor while it holds an `Arc` of its own, so between two calls there are no
other references.
-/

namespace RCore.Task

/-- The 32-bit words of an address space, by their address; `none` where nothing is
mapped. -/
abbrev UserMemory := Nat → Option Int

/-- `SignalFlags` as its bits. -/
abbrev SignalFlags := BitVec 32

namespace SignalFlags

def SIGINT : SignalFlags := 1 <<< 2
def SIGILL : SignalFlags := 1 <<< 4
def SIGABRT : SignalFlags := 1 <<< 6
def SIGFPE : SignalFlags := 1 <<< 8
def SIGSEGV : SignalFlags := 1 <<< 11

def all : SignalFlags :=
  SIGINT ||| SIGILL ||| SIGABRT ||| SIGFPE ||| SIGSEGV

def contains (self other : SignalFlags) : Bool :=
  self &&& other = other

def fromBits (bits : SignalFlags) : Option SignalFlags :=
  if all.contains bits then some bits else none

/-- The exit code and the message of the first fatal signal. -/
def checkError (self : SignalFlags) : Option (Int × String) :=
  if self.contains SIGINT then some (-2, "Killed, SIGINT=2")
  else if self.contains SIGILL then some (-4, "Illegal Instruction, SIGILL=4")
  else if self.contains SIGABRT then some (-6, "Aborted, SIGABRT=6")
  else if self.contains SIGFPE then some (-8, "Erroneous Arithmetic Operation, SIGFPE=8")
  else if self.contains SIGSEGV then some (-11, "Segmentation Fault, SIGSEGV=11")
  else none

end SignalFlags

structure ProcessControlBlock where
  pid : Nat
  isZombie : Bool
  memory : UserMemory
  /-- the process a `Weak` reference points to -/
  parent : Option Nat
  children : List Nat
  exitCode : Int
  signals : SignalFlags

/-- The panics of the modelled functions. -/
inductive Panic where
  /-- `current_task().unwrap()` -/
  | noCurrent
  /-- a cell is borrowed while it is borrowed -/
  | alreadyBorrowed
  /-- `remove_from_pid2process` -/
  | cannotFindPid (pid : Nat)
  /-- the assertion of `sys_waitpid` on the strong count -/
  | strongCount
  /-- an assertion of `RecycleAllocator::dealloc` -/
  | notAllocated
  /-- `translated_refmut` of an address that is not mapped or not aligned -/
  | badAddress
  /-- `handle_alloc_error` -/
  | heapExhausted
  deriving DecidableEq

structure ProcessTree where
  processes : List (Option ProcessControlBlock)
  pid2pcb : List (Nat × Nat)
  pidAllocator : RecycleAllocator

/-- The index of `INITPROC`. -/
def initproc : Nat := 0

/-- The kernel heap, in bytes; every control block takes at least one. -/
def kernelHeapSize : Nat := 0x200000

/-- The cast `as usize` of an `isize`. -/
def asUsize (x : Int) : Nat :=
  (x % 2 ^ 64).toNat

namespace ProcessTree

def get (σ : ProcessTree) (i : Nat) : Option ProcessControlBlock :=
  σ.processes[i]?.join

def update (σ : ProcessTree) (i : Nat) (f : ProcessControlBlock → ProcessControlBlock) :
    ProcessTree :=
  { σ with processes := σ.processes.modify i (Option.map f) }

/-- The children of the object in a heap cell. -/
def childrenOf (cell : Option ProcessControlBlock) : List Nat :=
  (cell.map (·.children)).getD []

/-- All references from children lists. -/
def childRefs (σ : ProcessTree) : List Nat :=
  σ.processes.flatMap childrenOf

/-- The references to a process, without those of the running code. -/
def strongCount (σ : ProcessTree) (i : Nat) : Nat :=
  (σ.pid2pcb.map (·.2)).count i + σ.childRefs.count i + if i = initproc then 1 else 0

def pid2process (σ : ProcessTree) (pid : Nat) : Option Nat :=
  σ.pid2pcb.lookup pid

def insertIntoPid2process (σ : ProcessTree) (pid process : Nat) : ProcessTree :=
  { σ with pid2pcb := (pid, process) :: σ.pid2pcb.filter (·.1 != pid) }

def removeFromPid2process (σ : ProcessTree) (pid : Nat) : Except Panic ProcessTree :=
  match σ.pid2process pid with
  | none => .error (.cannotFindPid pid)
  | some _ => .ok { σ with pid2pcb := σ.pid2pcb.filter (·.1 != pid) }

/-- The running code drops its reference to a process.  With the last reference the
control block is freed and its `PidHandle` dropped. -/
def release (σ : ProcessTree) (i : Nat) : Except Panic ProcessTree :=
  if σ.strongCount i = 0 then
    match σ.get i with
    | none => .ok σ
    | some process =>
        match σ.pidAllocator.dealloc process.pid with
        | none => .error .notAllocated
        | some allocator =>
            .ok { σ with processes := σ.processes.set i none, pidAllocator := allocator }
  else .ok σ

/-- The result is the process identifier of the child. -/
def sysFork (σ : ProcessTree) (i : Nat) : Except Panic (ProcessTree × Int) :=
  match σ.get i with
  | none => .error .noCurrent
  | some process =>
      if kernelHeapSize ≤ σ.processes.countP Option.isSome then .error .heapExhausted
      else
        let (pid, allocator) := σ.pidAllocator.alloc
        let child : ProcessControlBlock :=
          { pid := pid, isZombie := false, memory := process.memory, parent := some i
            children := [], exitCode := 0, signals := 0 }
        let index := σ.processes.length
        let σ := { σ with pidAllocator := allocator }.update i
          fun process => { process with children := process.children ++ [index] }
        let σ := { σ with processes := σ.processes ++ [some child] }
        .ok (σ.insertIntoPid2process pid index, wrapIsize pid)

/-- `image` is the address space of the program and the number of arguments;
there is none if the file cannot be opened. -/
def sysExec (σ : ProcessTree) (i : Nat) (image : Option (UserMemory × Nat)) :
    ProcessTree × Int :=
  match image with
  | none => (σ, -1)
  | some (memory, argc) =>
      (σ.update i fun process => { process with memory := memory }, wrapIsize argc)

def sysKill (σ : ProcessTree) (pid : Nat) (signal : SignalFlags) : ProcessTree × Int :=
  match σ.pid2process pid with
  | none => (σ, -1)
  | some target =>
      match SignalFlags.fromBits signal with
      | none => (σ, -1)
      | some flag =>
          (σ.update target fun process => { process with signals := process.signals ||| flag }, 0)

def currentAddSignal (σ : ProcessTree) (i : Nat) (signal : SignalFlags) : ProcessTree :=
  σ.update i fun process => { process with signals := process.signals ||| signal }

/-- Move a child under the initial process; its children list gets the reference. -/
def adopt (σ : ProcessTree) (child : Nat) : ProcessTree :=
  (σ.update child fun process => { process with parent := some initproc }).update initproc
    fun process => { process with children := process.children ++ [child] }

/-- The part of `exit_current_and_run_next` for the main thread.  The process and
the initial process stay borrowed while each child is borrowed. -/
def exitCurrentAndRunNext (σ : ProcessTree) (i : Nat) (exitCode : Int) :
    Except Panic ProcessTree :=
  match σ.get i with
  | none => .error .noCurrent
  | some process =>
      match σ.removeFromPid2process process.pid with
      | .error panic => .error panic
      | .ok σ =>
          if i = initproc ∨ i ∈ process.children ∨ initproc ∈ process.children then
            .error .alreadyBorrowed
          else
            let σ := σ.update i
              fun process => { process with isZombie := true, exitCode := exitCode }
            let σ := process.children.foldl adopt σ
            let σ := σ.update i fun process => { process with children := [] }
            σ.release i

/-- The condition of `sys_waitpid` on a child. -/
def matchesPid (σ : ProcessTree) (pid : Int) (child : Nat) : Bool :=
  pid = -1 ∨ (σ.get child).any (·.pid = asUsize pid)

def isExited (σ : ProcessTree) (child : Nat) : Bool :=
  (σ.get child).any (·.isZombie)

/-- The child that `sys_waitpid` finds. -/
def findExited (σ : ProcessTree) (children : List Nat) (pid : Int) : Option Nat :=
  children.find? fun child => σ.isExited child && σ.matchesPid pid child

def writeExitCode (memory : UserMemory) (ptr : Nat) (exitCode : Int) : Except Panic UserMemory :=
  if ptr % 4 = 0 ∧ (memory ptr).isSome then
    .ok fun address => if address = ptr then some exitCode else memory address
  else .error .badAddress

/-- The process is borrowed while its children are.  The reference that the child
list gives up is the one the strong count of 1 is about. -/
def sysWaitpid (σ : ProcessTree) (i : Nat) (pid : Int) (exitCodePtr : Nat) :
    Except Panic (ProcessTree × Int) :=
  match σ.get i with
  | none => .error .noCurrent
  | some process =>
      if !process.children.any (σ.matchesPid pid) then .ok (σ, -1)
      else if i ∈ process.children then .error .alreadyBorrowed
      else
        match σ.findExited process.children pid with
        | none => .ok (σ, -2)
        | some index =>
            let σ := σ.update i
              fun process => { process with children := process.children.erase index }
            if σ.strongCount index + 1 ≠ 1 then .error .strongCount
            else
              match σ.get index with
              | none => .error .noCurrent
              | some child =>
                  match writeExitCode process.memory exitCodePtr child.exitCode with
                  | .error panic => .error panic
                  | .ok memory =>
                      match (σ.update i fun process =>
                        { process with memory := memory }).release index with
                      | .error panic => .error panic
                      | .ok σ => .ok (σ, wrapIsize child.pid)

/-- The state after `add_initproc`, with the address space of the first program. -/
def boot (memory : UserMemory) : ProcessTree where
  processes :=
    [some { pid := RecycleAllocator.new.alloc.1, isZombie := false, memory := memory
            parent := none, children := [], exitCode := 0, signals := 0 }]
  pid2pcb := [(RecycleAllocator.new.alloc.1, initproc)]
  pidAllocator := RecycleAllocator.new.alloc.2

end ProcessTree

end RCore.Task
