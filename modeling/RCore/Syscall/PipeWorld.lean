import RCore.Fs.Pipe
import RCore.Mm.Translated
import RCore.Task.Id
import RCore.Task.UserRes

/-!
# Pipe calls that wait

`sys_read` and `sys_write` look up the slices of the user buffer once, before the call of
the pipe, and a call that waits keeps them while other threads run.  The model has the
threads of all processes with their spaces, the frame allocator and the pipes.  Whenever
the running thread gives up the processor, any other one may get it.
-/

namespace RCore.Syscall

open RCore.Fs RCore.Mm RCore.Task

/-- A call of a pipe, and the pointer that the user passed for its buffer. -/
structure PipeCall where
  pipe : Nat
  ptr : Nat
  call : Call

/-- `res` is there until the thread exits. -/
structure ThreadState where
  process : Nat
  res : Option TaskUserRes
  pending : Option PipeCall

structure ProcessState where
  /-- `none` when the process has exited -/
  memorySet : Option MemorySet
  taskResAllocator : RecycleAllocator
  /-- `tasks.len()` -/
  tasks : Nat

structure World where
  processes : List ProcessState
  threads : List ThreadState
  running : Nat
  mem : PhysMem
  pipes : Nat → PipeState
  /-- The frames of kernel stacks and of the page tables of exited processes. -/
  kernelFrames : List Nat

/-- A call of `write` has a reference to the write end of its own. -/
def holdWriteEnd (s : PipeState) : CallKind → PipeState
  | .read => s
  | .write => { s with strong := s.strong + 1 }

def releaseWriteEnd (s : PipeState) : CallKind → PipeState
  | .read => s
  | .write => { s with strong := s.strong - 1 }

namespace World

/-- The running thread changes. -/
def setThread (w : World) (t : ThreadState) : World :=
  { w with threads := w.threads.set w.running t }

def setProcess (w : World) (i : Nat) (p : ProcessState) : World :=
  { w with processes := w.processes.set i p }

/-- The pipe of a call as the call sees it. -/
def pipeOf (w : World) (c : PipeCall) : PipeState :=
  { w.pipes c.pipe with mem := w.mem.bytes }

/-- A pipe and memory change in a step of a call. -/
def setPipe (w : World) (pipe : Nat) (s : PipeState) : World :=
  { w with pipes := Function.update w.pipes pipe s, mem := { w.mem with bytes := s.mem } }

def spaces (w : World) : List MemorySet :=
  w.processes.filterMap ProcessState.memorySet

/-- The running thread is `t`; `p` is its process and `ms` the space of the process. -/
structure Runs (w : World) (t : ThreadState) (res : TaskUserRes) (p : ProcessState)
    (ms : MemorySet) : Prop where
  thread : w.threads[w.running]? = some t
  res : t.res = some res
  process : w.processes[t.process]? = some p
  space : p.memorySet = some ms

end World

/-- What the running thread does, as far as it matters which slices are kept. -/
inductive Action where
  | start (ptr len : Nat)
  | exitThread
  | tau

open World in
/-- One step of the running thread. -/
inductive Step (L : Layout) (parse : List UInt8 → Option ElfFile) :
    World → Action → World → Prop where
  /-- `sys_read` and `sys_write` of a pipe, up to the call of the pipe. -/
  | start {w : World} {t : ThreadState} {res : TaskUserRes} {p : ProcessState} {ms : MemorySet}
      (kind : CallKind) (pipe : Nat) {ptr len turns : Nat} {slices : List Slice}
      (h : w.Runs t res p ms) (hidle : t.pending = none)
      (hbuf : translatedByteBuffer ms.pageTable.token w.mem.bytes ptr len turns = some slices) :
      Step L parse w (.start ptr len)
        { w.setThread { t with pending := some ⟨pipe, ptr, .start kind ⟨slices⟩⟩ } with
          pipes := Function.update w.pipes pipe (holdWriteEnd (w.pipes pipe) kind) }
  | more {w : World} {t : ThreadState} {c : PipeCall} {call : Call} {s : PipeState}
      (hthread : w.threads[w.running]? = some t) (hpending : t.pending = some c)
      (hstep : c.call.step (w.pipeOf c) = some (.more call s)) :
      Step L parse w .tau
        ((w.setThread { t with pending := some { c with call := call } }).setPipe c.pipe s)
  | suspend {w : World} {t : ThreadState} {c : PipeCall} {call : Call} {s : PipeState} (next : Nat)
      (hthread : w.threads[w.running]? = some t) (hpending : t.pending = some c)
      (hstep : c.call.step (w.pipeOf c) = some (.suspend call s)) :
      Step L parse w .tau
        { (w.setThread { t with pending := some { c with call := call } }).setPipe c.pipe s with
          running := next }
  | ret {w : World} {t : ThreadState} {c : PipeCall} {n : Nat} {s : PipeState}
      (hthread : w.threads[w.running]? = some t) (hpending : t.pending = some c)
      (hstep : c.call.step (w.pipeOf c) = some (.ret n s)) :
      Step L parse w .tau
        ((w.setThread { t with pending := none }).setPipe c.pipe (releaseWriteEnd s c.call.kind))
  /-- `sys_thread_create` -/
  | threadCreate {w : World} {t : ThreadState} {res : TaskUserRes} {p : ProcessState}
      {ms ms' : MemorySet} {mem : PhysMem} (h : w.Runs t res p ms) (hidle : t.pending = none)
      (halloc : TaskUserRes.allocUserRes ⟨p.taskResAllocator.alloc.1, res.ustackBase⟩ ms w.mem =
        some (ms', mem)) :
      Step L parse w .tau
        { w.setProcess t.process ⟨some ms', p.taskResAllocator.alloc.2,
            max p.tasks (p.taskResAllocator.alloc.1 + 1)⟩ with
          threads := w.threads ++
            [⟨t.process, some ⟨p.taskResAllocator.alloc.1, res.ustackBase⟩, none⟩]
          mem := mem }
  /-- A thread that is not the main thread exits. -/
  | exitThread {w : World} {t : ThreadState} {res : TaskUserRes} {p : ProcessState}
      {ms ms' : MemorySet} {mem : PhysMem} {allocator : RecycleAllocator} (next : Nat)
      (h : w.Runs t res p ms) (hidle : t.pending = none) (htid : res.tid ≠ 0)
      (hdealloc : p.taskResAllocator.dealloc res.tid = some allocator)
      (hres : res.deallocUserRes ms w.mem = some (ms', mem)) :
      Step L parse w .exitThread
        { (w.setThread { t with res := none }).setProcess t.process ⟨some ms', allocator, p.tasks⟩ with
          mem := mem
          running := next }
  /-- The main thread exits; the exit panics if another thread of the process is alive. -/
  | exitMain {w : World} {t : ThreadState} {res : TaskUserRes} {p : ProcessState}
      {ms ms₁ ms' : MemorySet} {mem₁ mem : PhysMem} {allocator : RecycleAllocator} (next : Nat)
      (h : w.Runs t res p ms) (hidle : t.pending = none) (htid : res.tid = 0)
      (hdealloc : p.taskResAllocator.dealloc res.tid = some allocator)
      (hres : res.deallocUserRes ms w.mem = some (ms₁, mem₁))
      (hothers : ∀ (i : Nat) u, w.threads[i]? = some u → u.process = t.process → i ≠ w.running →
        u.res = none)
      (hrecycle : ms₁.recycleDataPages mem₁ = some (ms', mem)) :
      Step L parse w .tau
        { (w.setThread { t with res := none }).setProcess t.process ⟨none, allocator, p.tasks⟩ with
          mem := mem
          kernelFrames := ms'.pageTable.frames ++ w.kernelFrames
          running := next }
  /-- `fork`, of a process with one thread -/
  | fork {w : World} {t : ThreadState} {res : TaskUserRes} {p : ProcessState}
      {ms child : MemorySet} {mem : PhysMem} (h : w.Runs t res p ms) (hidle : t.pending = none)
      (hsingle : p.tasks = 1)
      (hcopy : MemorySet.fromExistedUser L.strampoline ms w.mem = some (child, mem)) :
      Step L parse w .tau
        { w with
          processes := w.processes ++ [⟨some child, RecycleAllocator.new.alloc.2, 1⟩]
          threads := w.threads ++ [⟨w.processes.length,
            some ⟨RecycleAllocator.new.alloc.1, res.ustackBase⟩, none⟩]
          mem := mem }
  /-- `exec`, of a process with one thread -/
  | exec {w : World} {t : ThreadState} {res : TaskUserRes} {p : ProcessState}
      {ms ms₁ ms' : MemorySet} {mem₁ mem₂ mem : PhysMem} {elfData : List UInt8}
      {base entry : Nat} (h : w.Runs t res p ms) (hidle : t.pending = none)
      (hsingle : p.tasks = 1)
      (hload : MemorySet.fromElf parse L.strampoline w.mem elfData =
        some ((ms₁, base, entry), mem₁))
      (hdrop : ms.drop mem₁ = some mem₂)
      (halloc : TaskUserRes.allocUserRes ⟨res.tid, base⟩ ms₁ mem₂ = some (ms', mem)) :
      Step L parse w .tau
        { (w.setThread { t with res := some ⟨res.tid, base⟩ }).setProcess t.process
            { p with memorySet := some ms' } with
          mem := mem }
  /-- Anything else outside of the calls: memory is written outside of page tables, frames
  of the kernel come and go, ends of pipes are opened and closed, another thread runs. -/
  | other {w : World} {mem : PhysMem} {pipes : Nat → PipeState} {kernelFrames : List Nat}
      (next : Nat) (hidle : ∀ t, w.threads[w.running]? = some t → t.pending = none)
      (hsame : ∀ ms ∈ w.spaces, ∀ x, x / 4096 ∈ ms.pageTable.frames →
        mem.bytes x = w.mem.bytes x)
      (howns : mem.allocator.Owns L.low L.high
        (w.spaces.flatMap MemorySet.frames ++ kernelFrames))
      (hpipes : ∀ i, (pipes i).ring = (w.pipes i).ring) :
      Step L parse w .tau
        { w with mem := mem, pipes := pipes, kernelFrames := kernelFrames, running := next }

/-- The first process and its main thread. -/
structure Boot (L : Layout) (parse : List UInt8 → Option ElfFile) (w : World) : Prop where
  space : ∃ ms s s₁ elfData base entry ms₁, s.allocator.Owns L.low L.high w.kernelFrames ∧
    MemorySet.fromElf parse L.strampoline s elfData = some ((ms₁, base, entry), s₁) ∧
    TaskUserRes.allocUserRes ⟨0, base⟩ ms₁ s₁ = some (ms, w.mem) ∧
    w.processes = [⟨some ms, RecycleAllocator.new.alloc.2, 1⟩] ∧
    w.threads = [⟨0, some ⟨0, base⟩, none⟩]
  running : w.running = 0
  pipes : ∀ i, (w.pipes i).ring = PipeRingBuffer.new

/-- Runs in which every step is allowed. -/
inductive Reaches (L : Layout) (parse : List UInt8 → Option ElfFile)
    (allowed : World → Action → Prop) : World → Prop where
  | boot {w : World} (h : Boot L parse w) : Reaches L parse allowed w
  | step {w w' : World} {a : Action} (h : Reaches L parse allowed w) (hallowed : allowed w a)
      (hstep : Step L parse w a w') : Reaches L parse allowed w'

end RCore.Syscall
