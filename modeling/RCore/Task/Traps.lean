import RCore.Task.Moves
import RCore.Task.Signals

/-!
# Traps

The threads and the process tree together, with the mode each thread is in.  A thread
that has run once goes back to user mode at the end of `trap_handler`, behind the check
of the pending signals.  The saved context of a new one is that of
`TaskContext::goto_trap_return`, which leads to `trap_return` and past the check.
-/

namespace RCore.Task

open RCore.Lib.History List Option Kernel

variable {t : Nat} {inner' : TaskControlBlock} {es : List Nat}

/-- How far a thread is from user mode. -/
inductive Mode where
  /-- it has never run, and its context is that of `goto_trap_return` -/
  | start
  /-- in `trap_handler`, also while it is switched away -/
  | handler
  | user
  deriving DecidableEq, Repr

structure System where
  kernel : Kernel
  tree : ProcessTree
  mode : Nat → Mode

namespace System

/-- The system calls.  `thread` is for those on threads and synchronisation objects;
`other` stands for the calls that change neither the threads nor the process tree. -/
inductive Call where
  | thread (call : Syscall)
  | exec (image : Option (UserMemory × Nat))
  | kill (pid : Nat) (signal : SignalFlags)
  | waitpid (pid : Int) (exitCodePtr : Nat)
  | other

/-- The causes that `trap_handler` knows; it panics for any other. -/
inductive Trap where
  | userEnvCall (call : Call)
  /-- one of the six access and page faults -/
  | pageFault
  | illegalInstruction
  | supervisorTimer (nowMs : Nat)

/-- The state after `add_initproc`. -/
def boot (memory : UserMemory) : System where
  kernel := Kernel.boot
  tree := ProcessTree.boot memory
  mode := fun _ => .start

def setMode (σ : System) (task : Nat) (mode : Mode) : System :=
  { σ with mode := Function.update σ.mode task mode }

/-! ## The calls -/

def checkSignalsOfCurrent (σ : System) : Option (Option (Int × String)) := do
  let (_, inner) ← σ.kernel.currentTask
  let process ← σ.tree.get inner.process
  some process.signals.checkError

def currentAddSignal (σ : System) (signal : SignalFlags) : Option System := do
  let (_, inner) ← σ.kernel.currentTask
  let _ ← σ.tree.get inner.process
  some { σ with tree := σ.tree.currentAddSignal inner.process signal }

/-- The process ends with its main thread. -/
def exitCurrentAndRunNext (σ : System) (exitCode : Int) : Option System := do
  let (_, inner) ← σ.kernel.currentTask
  let kernel ← σ.kernel.exitCurrentAndRunNext exitCode
  if inner.res = some 0 then
    let tree ← (σ.tree.exitCurrentAndRunNext inner.process exitCode).toOption
    some { σ with kernel := kernel, tree := tree }
  else some { σ with kernel := kernel }

def sysFork (σ : System) : Option System := do
  let (_, inner) ← σ.kernel.currentTask
  let kernel ← σ.kernel.sysFork
  let (tree, _) ← (σ.tree.sysFork inner.process).toOption
  some { σ with kernel := kernel, tree := tree }

/-- A process with a second thread panics, if the file can be opened. -/
def sysExec (σ : System) (image : Option (UserMemory × Nat)) : Option System := do
  let (index, process) ← σ.kernel.currentProcess
  if image.isSome ∧ process.tasks.length ≠ 1 then none
  else some { σ with tree := (σ.tree.sysExec index image).1 }

def sysWaitpid (σ : System) (pid : Int) (exitCodePtr : Nat) : Option System := do
  let (_, inner) ← σ.kernel.currentTask
  let (tree, _) ← (σ.tree.sysWaitpid inner.process pid exitCodePtr).toOption
  some { σ with tree := tree }

/-- A system call up to its return or the point where the caller is switched away. -/
def syscall (σ : System) : Call → Option System
  | .thread (.exit exitCode) => σ.exitCurrentAndRunNext exitCode
  | .thread .fork => σ.sysFork
  | .thread call => (σ.kernel.syscall call).map fun kernel => { σ with kernel := kernel }
  | .exec image => σ.sysExec image
  | .kill pid signal => some { σ with tree := (σ.tree.sysKill pid signal).1 }
  | .waitpid pid exitCodePtr => σ.sysWaitpid pid exitCodePtr
  | .other => some σ

/-- What `trap_handler` does for a trap, up to the check of the signals or the point
where the thread is switched away. -/
inductive Handles (σ : System) : Trap → System → Prop where
  | userEnvCall {call : Call} {σ' : System} (h : σ.syscall call = some σ') :
      Handles σ (.userEnvCall call) σ'
  | pageFault {σ' : System} (h : σ.currentAddSignal .SIGSEGV = some σ') : Handles σ .pageFault σ'
  | illegalInstruction {σ' : System} (h : σ.currentAddSignal .SIGILL = some σ') :
      Handles σ .illegalInstruction σ'
  | supervisorTimer {nowMs : Nat} {kernel kernel' : Kernel}
      (hcheck : CheckTimer nowMs σ.kernel kernel)
      (h : kernel.suspendCurrentAndRunNext .user = some kernel') :
      Handles σ (.supervisorTimer nowMs) { σ with kernel := kernel' }

/-- The steps of the system.  The events are the processes that enter user mode. -/
inductive Step : System → List Nat → System → Prop where
  | runTasks {σ : System} (hidle : σ.kernel.current = none) :
      Step σ [] { σ with kernel := σ.kernel.runTasks }
  /-- `__switch` to a thread that has never run returns to `trap_return` -/
  | gotoTrapReturn {σ : System} {task : Nat} {inner : TaskControlBlock}
      (hcur : σ.kernel.currentTask = some (task, inner)) (hmode : σ.mode task = .start) :
      Step σ [inner.process] (σ.setMode task .user)
  | trap {σ σ' : System} {task : Nat} {inner : TaskControlBlock} (trap : Trap)
      (hcur : σ.kernel.currentTask = some (task, inner)) (hmode : σ.mode task = .user)
      (h : Handles (σ.setMode task .handler) trap σ') : Step σ [] σ'
  | lock {σ : System} {kernel : Kernel} (mutex : Nat) (hat : σ.kernel.AtResume (.lock mutex))
      (h : σ.kernel.lock mutex = some kernel) : Step σ [] { σ with kernel := kernel }
  | pollAgain {σ : System} {kernel : Kernel} (hat : σ.kernel.AtResume .poll)
      (h : σ.kernel.suspendCurrentAndRunNext .poll = some kernel) :
      Step σ [] { σ with kernel := kernel }
  | pollDone {σ : System} {task : Nat} (hat : σ.kernel.AtResume .poll)
      (hcur : σ.kernel.current = some task) :
      Step σ [] { σ with
        kernel := σ.kernel.updateTask task fun inner => { inner with resume := .user } }
  /-- the check at the end of `trap_handler` finds a signal -/
  | signal {σ σ' : System} {task : Nat} {inner : TaskControlBlock} {errno : Int} {msg : String}
      (hcur : σ.kernel.currentTask = some (task, inner)) (hmode : σ.mode task = .handler)
      (huser : inner.resume = .user)
      (hcheck : σ.checkSignalsOfCurrent = some (some (errno, msg)))
      (h : σ.exitCurrentAndRunNext errno = some σ') : Step σ [] σ'
  /-- it finds none -/
  | trapReturn {σ : System} {task : Nat} {inner : TaskControlBlock}
      (hcur : σ.kernel.currentTask = some (task, inner)) (hmode : σ.mode task = .handler)
      (huser : inner.resume = .user) (hcheck : σ.checkSignalsOfCurrent = some none) :
      Step σ [inner.process] (σ.setMode task .user)

end System

/-! ## What a thread does in the kernel -/

namespace System

variable {σ σ' : System} {task : Nat} {inner : TaskControlBlock}

/-- `task` works in `trap_handler`: a step of the kernel or none, and a call on the process
tree or none, by which a process ends only with all of its threads. -/
structure Works (σ σ' : System) (task new : Nat) (events : List Event) : Prop where
  step : Relation.ReflTransGen Kernel.Step σ.kernel σ'.kernel
  moves : σ.kernel.Moves σ'.kernel task new
  grows : σ.tree.Grows σ'.tree new events
  mode : σ'.mode = σ.mode
  exits : ∀ k code, .exited k code ∈ events →
    ∀ (t : Nat) (inner : TaskControlBlock), σ'.kernel.tasks[t]? = some inner →
      inner.process = k → inner.exitCode ≠ none

/-- The kernel and the process tree are in states of their own runs and agree on the
processes that exist; at most the running thread is in user mode; one that is not in
`trap_handler` is not inside a system call either and has not exited; and the process of
a thread that has not exited is live. -/
structure Inv (σ : System) : Prop where
  kernel : σ.kernel.Reachable
  tree : ∃ log, σ.tree.Run log
  length : σ.kernel.processes.length = σ.tree.processes.length
  user : ∀ task, σ.mode task = .user → σ.kernel.current = some task
  resume : ∀ (task : Nat) (inner : TaskControlBlock), σ.kernel.tasks[task]? = some inner →
    σ.mode task ≠ .handler → inner.resume = .user
  exited : ∀ (task : Nat) (inner : TaskControlBlock), σ.kernel.tasks[task]? = some inner →
    inner.exitCode ≠ none → σ.mode task = .handler
  live : ∀ (task : Nat) (inner : TaskControlBlock), σ.kernel.tasks[task]? = some inner →
    inner.exitCode = none → ∃ pcb, σ.tree.Live inner.process pcb

theorem eq_ok_of_toOption {ε α : Type} {result : Except ε α} {a : α}
    (h : result.toOption = some a) : result = .ok a := by
  cases result with
  | error panic => cases h
  | ok b => exact congrArg Except.ok (Option.some.inj h)

theorem works_kernel {kernel : Kernel} (hstep : σ.kernel.Step kernel)
    (hmoves : σ.kernel.Moves kernel task 0) :
    Works σ { σ with kernel := kernel } task 0 [] where
  step := .single hstep
  moves := hmoves
  grows := .refl σ.tree
  mode := rfl
  exits := fun _ _ hevent => absurd hevent not_mem_nil

theorem works_tree {tree : ProcessTree} {events : List Event} (hgrows : σ.tree.Grows tree 0 events)
    (hstays : ∀ k code, .exited k code ∉ events) :
    Works σ { σ with tree := tree } task 0 events where
  step := .refl
  moves := .refl σ.kernel task
  grows := hgrows
  mode := rfl
  exits := fun k code hevent => absurd hevent (hstays k code)

section Calls

variable (h : Inv σ) (hcur : σ.kernel.currentTask = some (task, inner))
include h hcur

theorem exitCode_of_current : inner.exitCode = none := by
  have hres := h.kernel.res_of_current hcur
  have hinner := (currentTask_eq_some hcur).2
  exact (h.kernel.threadInv.res_iff (threadOf_eq hinner)).mp (isSome_iff_ne_none.mpr hres)

theorem exists_live_of_current : ∃ pcb, σ.tree.Live inner.process pcb := by
  have hinner := (currentTask_eq_some hcur).2
  exact h.live task inner hinner (exitCode_of_current h hcur)

theorem works_currentAddSignal {signal : SignalFlags}
    (hadd : σ.currentAddSignal signal = some σ') : Works σ σ' task 0 [] := by
  obtain ⟨pcb, hlive⟩ := exists_live_of_current h hcur
  simp only [currentAddSignal, hcur, hlive.1, do_some, Option.some.injEq] at hadd
  subst hadd
  exact works_tree (ProcessTree.grows_currentAddSignal hlive signal) fun _ _ => not_mem_nil

variable (huser : inner.resume = .user)
include huser

theorem works_exitCurrentAndRunNext {exitCode : Int}
    (hexit : σ.exitCurrentAndRunNext exitCode = some σ') :
    (∃ events, Works σ σ' task 0 events) ∧
      σ'.kernel.tasks.length = σ.kernel.tasks.length := by
  obtain ⟨log, hrun⟩ := h.tree
  obtain ⟨pcb, hlive⟩ := exists_live_of_current h hcur
  simp only [exitCurrentAndRunNext, hcur, do_some, do_eq_some_iff] at hexit
  obtain ⟨kernel, hkernel, hexit⟩ := hexit
  have hstep : σ.kernel.Step kernel := .syscall (.exit exitCode) ⟨task, inner, hcur, huser⟩ hkernel
  obtain ⟨hmoves, hlen⟩ := moves_exitCurrentAndRunNext hcur hkernel
  split at hexit
  · next hmain =>
    obtain ⟨tree, htree, hexit⟩ := bind_eq_some_iff.mp hexit
    cases hexit
    have hok := eq_ok_of_toOption htree
    refine ⟨⟨[.exited inner.process exitCode], .single hstep, hmoves,
      ProcessTree.grows_exitCurrentAndRunNext hrun.inv hlive hok, rfl, ?_⟩, hlen⟩
    intro k code hevent t inner' hinner' hprocess
    obtain ⟨rfl, -⟩ := Event.exited.inj (mem_singleton.mp hevent)
    exact exited_of_main_exit h.kernel huser hcur hmain hkernel hinner' hprocess
  · cases hexit
    exact ⟨⟨[], works_kernel hstep hmoves⟩, hlen⟩

theorem works_sysFork (hfork : σ.sysFork = some σ') : Works σ σ' task 1 [] := by
  obtain ⟨log, hrun⟩ := h.tree
  obtain ⟨pcb, hlive⟩ := exists_live_of_current h hcur
  simp only [sysFork, hcur, do_some, do_eq_some_iff, Option.some.injEq] at hfork
  obtain ⟨kernel, hkernel, ⟨tree, result⟩, htree, rfl⟩ := hfork
  have hok := eq_ok_of_toOption htree
  have hstep : σ.kernel.Step kernel := .syscall .fork ⟨task, inner, hcur, huser⟩ hkernel
  exact ⟨.single hstep, moves_sysFork hcur hkernel,
    ProcessTree.grows_sysFork hrun.inv hlive hok, rfl,
    fun _ _ hevent => absurd hevent not_mem_nil⟩

theorem works_syscall {call : Call} (hcall : σ.syscall call = some σ') :
    ∃ new events, Works σ σ' task new events := by
  obtain ⟨log, hrun⟩ := h.tree
  obtain ⟨pcb, hlive⟩ := exists_live_of_current h hcur
  cases call with
  | thread call =>
    by_cases hfork : call = .fork
    · subst hfork
      exact ⟨1, [], works_sysFork h hcur huser hcall⟩
    by_cases hexit : ∃ exitCode, call = .exit exitCode
    · obtain ⟨exitCode, rfl⟩ := hexit
      obtain ⟨⟨events, hworks⟩, -⟩ := works_exitCurrentAndRunNext h hcur huser hcall
      exact ⟨0, events, hworks⟩
    have hmap : (σ.kernel.syscall call).map (fun kernel => { σ with kernel := kernel }) =
        some σ' := by
      cases call with
      | fork => exact absurd rfl hfork
      | exit exitCode => exact absurd ⟨exitCode, rfl⟩ hexit
      | _ => exact hcall
    obtain ⟨kernel, hkernel, rfl⟩ := map_eq_some_iff.mp hmap
    exact ⟨0, [], works_kernel (.syscall call ⟨task, inner, hcur, huser⟩ hkernel)
      (moves_syscall hcur hfork hkernel)⟩
  | exec image =>
    simp only [syscall, sysExec, currentProcess, hcur, do_some, do_eq_some_iff] at hcall
    obtain ⟨⟨index, process⟩, ⟨_, -, heq⟩, hcall⟩ := hcall
    cases heq
    split at hcall
    · cases hcall
    · cases hcall
      exact ⟨0, [], works_tree (ProcessTree.grows_sysExec hlive image)
        fun _ _ => not_mem_nil⟩
  | kill pid signal =>
    cases hcall
    exact ⟨0, [], works_tree (ProcessTree.grows_sysKill hlive pid signal)
      fun _ _ => not_mem_nil⟩
  | waitpid pid exitCodePtr =>
    simp only [syscall, sysWaitpid, hcur, do_some, do_eq_some_iff, Option.some.injEq] at hcall
    obtain ⟨⟨tree, result⟩, htree, rfl⟩ := hcall
    have hok := eq_ok_of_toOption htree
    obtain ⟨events, hgrows, hstays⟩ := ProcessTree.grows_sysWaitpid hrun.inv hlive hok
    exact ⟨0, events, works_tree hgrows hstays⟩
  | other =>
    cases hcall
    exact ⟨0, [], works_tree (.refl σ.tree) fun _ _ => not_mem_nil⟩

theorem Handles.works {trap : Trap} (hhandles : Handles σ trap σ') :
    ∃ new events, Works σ σ' task new events := by
  cases hhandles with
  | userEnvCall hcall => exact works_syscall h hcur huser hcall
  | pageFault hadd => exact ⟨0, [], works_currentAddSignal h hcur hadd⟩
  | illegalInstruction hadd => exact ⟨0, [], works_currentAddSignal h hcur hadd⟩
  | supervisorTimer hcheck hsuspend =>
    have hchosen := Chosen.timer ⟨task, inner, hcur, huser⟩ hcheck hsuspend
    exact ⟨0, [], works_kernel hchosen.step ((hchosen.observed.frame rfl).moves task)⟩

end Calls

/-! ## The invariant -/

theorem inv_boot (memory : UserMemory) : Inv (boot memory) := by
  have hthread : ∀ (task : Nat) (inner : TaskControlBlock),
      (boot memory).kernel.tasks[task]? = some inner → inner = .new 0 0 := by
    intro task inner hinner
    have hmem := mem_of_getElem? hinner
    exact mem_singleton.mp hmem
  refine ⟨.boot, ⟨[], .boot memory⟩, rfl, fun task huser => ?_, fun task inner hinner _ => ?_,
    fun task inner hinner hexited => ?_, fun task inner hinner _ => ?_⟩
  · cases huser
  · rw [hthread task inner hinner]
    rfl
  · rw [hthread task inner hinner] at hexited
    exact absurd rfl hexited
  · rw [hthread task inner hinner]
    exact ⟨_, rfl, rfl⟩

@[simp] theorem mode_setMode_self (σ : System) (task : Nat) (mode : Mode) :
    (σ.setMode task mode).mode task = mode := by
  simp [setMode]

theorem mode_setMode_of_ne (σ : System) {task : Nat} (mode : Mode) (hne : t ≠ task) :
    (σ.setMode task mode).mode t = σ.mode t := by
  simp [setMode, hne]

/-- The running thread changes its mode; it leaves `trap_handler` only if it is not inside
a system call. -/
theorem Inv.setMode {mode : Mode} (h : Inv σ) (hcur : σ.kernel.currentTask = some (task, inner))
    (huser : mode ≠ .handler → inner.resume = .user) : Inv (σ.setMode task mode) := by
  obtain ⟨hcurrent, hinner⟩ := currentTask_eq_some hcur
  refine ⟨h.kernel, h.tree, h.length, fun t ht => ?_, fun t inner' ht hmode => ?_,
    fun t inner' ht hexited => ?_, h.live⟩
  · by_cases htask : t = task
    · rw [htask]
      exact hcurrent
    · rw [mode_setMode_of_ne σ mode htask] at ht
      exact h.user t ht
  · by_cases htask : t = task
    · subst htask
      cases hinner.symm.trans ht
      rw [mode_setMode_self] at hmode
      exact huser hmode
    · rw [mode_setMode_of_ne σ mode htask] at hmode
      exact h.resume t inner' ht hmode
  · have htask : t ≠ task := by
      rintro rfl
      cases hinner.symm.trans ht
      exact hexited (exitCode_of_current h hcur)
    rw [mode_setMode_of_ne σ mode htask]
    exact h.exited t inner' ht hexited

namespace Works

variable {new : Nat} {events : List Event} (hworks : Works σ σ' task new events)
include hworks

theorem created_process (hinner : σ.kernel.tasks[task]? = some inner)
    (hge : σ.kernel.tasks.length ≤ t) (hinner' : σ'.kernel.tasks[t]? = some inner') :
    inner'.process = inner.process ∨
      σ.kernel.processes.length ≤ inner'.process ∧
        inner'.process < σ.kernel.processes.length + new := by
  obtain ⟨-, -, hprocess⟩ := hworks.moves.created t inner' hge hinner'
  rw [processOf_eq hinner] at hprocess
  exact hprocess.imp_left fun heq => (Option.some.inj heq).symm

end Works

section Works

variable {new : Nat} {events : List Event} (h : Inv σ)
  (hcur : σ.kernel.currentTask = some (task, inner)) (hworks : Works σ σ' task new events)
include h hcur hworks

/-- A thread that is not in `trap_handler` is another one, or has just been created. -/
theorem Works.resume_eq (hmode : σ.mode task = .handler) (ht : σ'.kernel.tasks[t]? = some inner')
    (hleft : σ.mode t ≠ .handler) : inner'.resume = .user := by
  by_cases hlt : t < σ.kernel.tasks.length
  · have hother : σ.kernel.current ≠ some t := by
      rw [(currentTask_eq_some hcur).1]
      intro heq
      exact hleft (Option.some.inj heq ▸ hmode)
    have hold : σ.kernel.tasks[t]? = some σ.kernel.tasks[t] := getElem?_eq_getElem hlt
    have hkept := hworks.moves.resume t .user hother (by
      rw [resumeOf, hold, map_some, h.resume t _ hold hleft])
    rw [resumeOf, ht] at hkept
    exact Option.some.inj hkept
  · exact (hworks.moves.created t inner' (Nat.le_of_not_lt hlt) ht).1

theorem Works.live_or_new (ht : σ'.kernel.tasks[t]? = some inner')
    (hnone : inner'.exitCode = none) :
    (∃ pcb, σ.tree.Live inner'.process pcb) ∨
      σ.tree.processes.length ≤ inner'.process ∧
        inner'.process < σ.tree.processes.length + new := by
  have hinner := (currentTask_eq_some hcur).2
  by_cases hlt : t < σ.kernel.tasks.length
  · left
    by_cases htask : t = task
    · subst htask
      have hown := hworks.moves.own
      rw [processOf_eq hinner, processOf_eq ht] at hown
      rw [Option.some.inj hown]
      exact exists_live_of_current h hcur
    · obtain ⟨old, hold, hprocess, hcode⟩ :=
        exists_of_threadOf_eq (hworks.moves.other t htask hlt) ht
      rw [← hprocess]
      exact h.live t old hold (hcode.trans hnone)
  · rcases hworks.created_process hinner (Nat.le_of_not_lt hlt) ht with heq | hnew
    · left
      rw [heq]
      exact exists_live_of_current h hcur
    · rw [h.length] at hnew
      exact .inr hnew

theorem Works.live (ht : σ'.kernel.tasks[t]? = some inner') (hnone : inner'.exitCode = none) :
    ∃ pcb, σ'.tree.Live inner'.process pcb := by
  have hstays : ∀ code, .exited inner'.process code ∉ events :=
    fun code hevent => hworks.exits _ code hevent t inner' ht rfl hnone
  rcases hworks.live_or_new h hcur ht hnone with ⟨pcb, hlive⟩ | ⟨hge, hlt⟩
  · exact hworks.grows.live _ pcb hlive hstays
  · rw [← hworks.grows.length] at hlt
    exact hworks.grows.fresh _ hge hlt

theorem Inv.works (hmode : σ.mode task = .handler) : Inv σ' := by
  obtain ⟨hcurrent, hinner⟩ := currentTask_eq_some hcur
  obtain ⟨log, hrun⟩ := h.tree
  have hlen : σ'.kernel.processes.length = σ'.tree.processes.length := by
    rw [hworks.moves.length, hworks.grows.length, h.length]
  refine ⟨h.kernel.trans hworks.step, hworks.grows.run log hrun, hlen, fun t ht => ?_,
    fun t inner' ht hleft => ?_, fun t inner' ht hexited => ?_,
    fun t inner' ht hnone => hworks.live h hcur ht hnone⟩
  · -- the running thread is in `trap_handler`, so no thread is in user mode
    rw [hworks.mode] at ht
    have hsame := h.user t ht
    rw [hcurrent] at hsame
    rw [← Option.some.inj hsame, hmode] at ht
    cases ht
  · rw [hworks.mode] at hleft
    exact hworks.resume_eq h hcur hmode ht hleft
  · rw [hworks.mode]
    by_cases htask : t = task
    · rw [htask]
      exact hmode
    by_cases hlt : t < σ.kernel.tasks.length
    · obtain ⟨old, hold, -, hcode⟩ :=
        exists_of_threadOf_eq (hworks.moves.other t htask hlt) ht
      exact h.exited t old hold (by rwa [hcode])
    · exact absurd (hworks.moves.created t inner' (Nat.le_of_not_lt hlt) ht).2.1 hexited

end Works

theorem Inv.runTasks (h : Inv σ) (hidle : σ.kernel.current = none) :
    Inv { σ with kernel := σ.kernel.runTasks } := by
  have hchosen := Chosen.runTasks hidle
  have hframe := hchosen.observed.frame rfl
  refine ⟨h.kernel.step hchosen.step, h.tree, hframe.length.trans h.length, fun t ht => ?_,
    fun t inner' ht hmode => ?_, fun t inner' ht hexited => ?_, fun t inner' ht hnone => ?_⟩
  · have hcurrent := h.user t ht
    rw [hidle] at hcurrent
    cases hcurrent
  · obtain ⟨old, hold, -⟩ := exists_of_threadOf_eq (congrFun hframe.thread t) ht
    have hkept := hframe.resume t .user (by rw [hidle]; exact nofun) (by
      rw [resumeOf, hold, map_some, h.resume t old hold hmode])
    rw [resumeOf, ht] at hkept
    exact Option.some.inj hkept
  · obtain ⟨old, hold, -, hcode⟩ := exists_of_threadOf_eq (congrFun hframe.thread t) ht
    exact h.exited t old hold (by rwa [hcode])
  · obtain ⟨old, hold, hprocess, hcode⟩ :=
      exists_of_threadOf_eq (congrFun hframe.thread t) ht
    rw [← hprocess]
    exact h.live t old hold (hcode.trans hnone)

/-! ## Steps by what they do to the modes -/

/-- The idle loop runs; the running thread enters user mode, for the first time or behind
the check; or it works in `trap_handler`, where it creates threads only if it has come
from user mode. -/
inductive Pass (σ : System) : List Nat → System → Prop where
  | idle (hidle : σ.kernel.current = none) : Pass σ [] { σ with kernel := σ.kernel.runTasks }
  | enter {task : Nat} {inner : TaskControlBlock}
      (hcur : σ.kernel.currentTask = some (task, inner)) (huser : inner.resume = .user)
      (hclear : σ.mode task = .start ∨
        σ.mode task = .handler ∧ σ.checkSignalsOfCurrent = some none) :
      Pass σ [inner.process] (σ.setMode task .user)
  | work {σ' : System} {task new : Nat} {inner : TaskControlBlock} {events : List Event}
      (hcur : σ.kernel.currentTask = some (task, inner))
      (hmode : σ.mode task = .user ∨
        σ.mode task = .handler ∧ σ'.kernel.tasks.length = σ.kernel.tasks.length)
      (hworks : Works (σ.setMode task .handler) σ' task new events) : Pass σ [] σ'

theorem setMode_of_eq {mode : Mode} (h : σ.mode task = mode) : σ.setMode task mode = σ := by
  subst h
  simp [setMode]

theorem Inv.pass_of_chosen {kernel : Kernel} {choice : Choice} {resume : Resume}
    (h : Inv σ) (hat : σ.kernel.AtResume resume) (hinside : resume ≠ .user)
    (hchosen : Chosen σ.kernel choice kernel) (hmanages : choice.managesThreads = false) :
    Pass σ [] { σ with kernel := kernel } := by
  obtain ⟨task, inner, hcur, hresume⟩ := hat
  obtain ⟨hcurrent, hinner⟩ := currentTask_eq_some hcur
  have hmode : σ.mode task = .handler := by
    by_contra hleft
    exact hinside (hresume.symm.trans (h.resume task inner hinner hleft))
  have hframe := hchosen.observed.frame hmanages
  have hworks : Works (σ.setMode task .handler) { σ with kernel := kernel } task 0 [] := by
    rw [setMode_of_eq hmode]
    exact works_kernel hchosen.step (hframe.moves task)
  exact .work hcur (.inr ⟨hmode, hframe.length_tasks⟩) hworks

theorem Step.pass (h : Inv σ) (hstep : Step σ es σ') : Pass σ es σ' := by
  cases hstep with
  | runTasks hidle => exact .idle hidle
  | @gotoTrapReturn task inner hcur hmode =>
    have hinner := (currentTask_eq_some hcur).2
    have huser := h.resume task inner hinner (by rw [hmode]; exact nofun)
    exact .enter hcur huser (.inl hmode)
  | @trap _ task inner trap hcur hmode hhandles =>
    have hinner := (currentTask_eq_some hcur).2
    have huser := h.resume task inner hinner (by rw [hmode]; exact nofun)
    have hinv : Inv (σ.setMode task .handler) := h.setMode hcur fun hne => absurd rfl hne
    obtain ⟨new, events, hworks⟩ := hhandles.works hinv hcur huser
    exact .work hcur (.inl hmode) hworks
  | lock mutex hat hlock => exact h.pass_of_chosen hat nofun (.lock hat hlock) rfl
  | pollAgain hat hsuspend => exact h.pass_of_chosen hat nofun (.pollAgain hat hsuspend) rfl
  | pollDone hat hcurrent => exact h.pass_of_chosen hat nofun (.pollDone hat hcurrent) rfl
  | signal hcur hmode huser hcheck hexit =>
    obtain ⟨⟨events, hworks⟩, hlen⟩ := works_exitCurrentAndRunNext h hcur huser hexit
    rw [← setMode_of_eq hmode] at hworks
    exact .work hcur (.inr ⟨hmode, hlen⟩) hworks
  | trapReturn hcur hmode huser hcheck => exact .enter hcur huser (.inr ⟨hmode, hcheck⟩)

theorem Pass.inv (h : Inv σ) (hpass : Pass σ es σ') : Inv σ' := by
  cases hpass with
  | idle hidle => exact h.runTasks hidle
  | enter hcur huser hclear => exact h.setMode hcur fun _ => huser
  | work hcur hmode hworks =>
    have hinv : Inv (σ.setMode _ .handler) := h.setMode hcur fun hne => absurd rfl hne
    exact hinv.works hcur hworks (mode_setMode_self _ _ _)

theorem inv_of_run {memory : UserMemory} {past : List Nat}
    (h : Run (· = boot memory) Step past σ) : Inv σ := by
  induction h with
  | start h => exact h ▸ inv_boot memory
  | step _ hstep ih => exact (hstep.pass ih).inv ih

theorem Pass.processOf_eq (hpass : Pass σ es σ') (ht : t < σ.kernel.tasks.length) :
    σ'.kernel.processOf t = σ.kernel.processOf t := by
  cases hpass with
  | idle hidle =>
    have hframe := (Chosen.runTasks hidle).observed.frame rfl
    exact processOf_eq_of_threadOf (congrFun hframe.thread t)
  | enter => rfl
  | work hcur hmode hworks => exact hworks.moves.processOf_eq ht

end System

end RCore.Task
