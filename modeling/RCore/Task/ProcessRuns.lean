import RCore.Task.ProcessExit

/-!
# Runs of the process tree

Processes make system calls in any order.  The log of a run records the exits and
what `waitpid` reported, so that the two can be compared.
-/

namespace RCore.Task

open List

variable {memory : UserMemory} {exitCode pid : Int} {k i exitCodePtr index : Nat}
  {process child : ProcessControlBlock}

/-- `exited` names the process and its exit code; `reported` names the process that
was waited for, the identifier that `waitpid` returned and the code that it wrote. -/
inductive Event where
  | exited (process : Nat) (exitCode : Int)
  | reported (process : Nat) (pid : Int) (exitCode : Int)
  deriving DecidableEq

def Event.isExitOf (process : Nat) : Event → Bool
  | exited other _ => other = process
  | reported _ _ _ => false

def Event.isReportOf (process : Nat) : Event → Bool
  | exited _ _ => false
  | reported other _ _ => other = process

namespace ProcessTree

/-- The process exists and has not exited. -/
def Live (σ : ProcessTree) (i : Nat) (process : ProcessControlBlock) : Prop :=
  σ.get i = some process ∧ process.isZombie = false

/-- A call of a live process, or the end of one by a signal.  Signals are checked on
the way back to user mode; that a process may make another call before the check
only adds runs.  A panic ends the run. -/
inductive Step : ProcessTree → List Event → ProcessTree → Prop where
  | fork {σ σ' : ProcessTree} {i : Nat} {process : ProcessControlBlock} {result : Int}
      (hlive : σ.Live i process) (h : σ.sysFork i = .ok (σ', result)) : Step σ [] σ'
  | exec {σ : ProcessTree} {i : Nat} {process : ProcessControlBlock} (hlive : σ.Live i process)
      (image : Option (UserMemory × Nat)) : Step σ [] (σ.sysExec i image).1
  | kill {σ : ProcessTree} {i : Nat} {process : ProcessControlBlock} (hlive : σ.Live i process)
      (pid : Nat) (signal : SignalFlags) : Step σ [] (σ.sysKill pid signal).1
  | fault {σ : ProcessTree} {i : Nat} {process : ProcessControlBlock} (hlive : σ.Live i process)
      (signal : SignalFlags) : Step σ [] (σ.currentAddSignal i signal)
  | exit {σ σ' : ProcessTree} {i : Nat} {process : ProcessControlBlock}
      (hlive : σ.Live i process) (exitCode : Int)
      (h : σ.exitCurrentAndRunNext i exitCode = .ok σ') : Step σ [.exited i exitCode] σ'
  | signal {σ σ' : ProcessTree} {i : Nat} {process : ProcessControlBlock} {exitCode : Int}
      {message : String} (hlive : σ.Live i process)
      (hfatal : process.signals.checkError = some (exitCode, message))
      (h : σ.exitCurrentAndRunNext i exitCode = .ok σ') : Step σ [.exited i exitCode] σ'
  | waitpidNone {σ σ' : ProcessTree} {i : Nat} {process : ProcessControlBlock} {pid : Int}
      {exitCodePtr : Nat} {result : Int} (hlive : σ.Live i process)
      (hfind : σ.findExited process.children pid = none)
      (h : σ.sysWaitpid i pid exitCodePtr = .ok (σ', result)) : Step σ [] σ'
  | waitpid {σ σ' : ProcessTree} {i : Nat} {process process' : ProcessControlBlock} {pid : Int}
      {exitCodePtr index : Nat} {result exitCode : Int} (hlive : σ.Live i process)
      (hfind : σ.findExited process.children pid = some index)
      (h : σ.sysWaitpid i pid exitCodePtr = .ok (σ', result)) (hself : σ'.get i = some process')
      (hcode : process'.memory exitCodePtr = some exitCode) :
      Step σ [.reported index result exitCode] σ'

inductive Run : ProcessTree → List Event → Prop where
  | boot (memory : UserMemory) : Run (boot memory) []
  | step {σ σ' : ProcessTree} {log events : List Event} (h : Run σ log)
      (hstep : Step σ events σ') : Run σ' (log ++ events)

variable {σ σ' : ProcessTree}

/-! ## The invariant along a run -/

theorem writeExitCode_error {ptr : Nat} {panic : Panic}
    (h : writeExitCode memory ptr exitCode = .error panic) : panic = .badAddress := by
  rw [writeExitCode] at h
  split at h
  · cases h
  · exact (Except.error.inj h).symm

theorem writeExitCode_eq {memory' : UserMemory} {ptr : Nat}
    (h : writeExitCode memory ptr exitCode = .ok memory') :
    memory' = fun address => if address = ptr then some exitCode else memory address := by
  rw [writeExitCode] at h
  split at h
  · exact (Except.ok.inj h).symm
  · cases h

/-- The exit code of a process that has exited and not been waited for. -/
def exitedWith (σ : ProcessTree) (k : Nat) : Option Int :=
  (σ.get k).bind fun p => if p.isZombie then some p.exitCode else none

/-- The cell has been used and freed. -/
def Gone (σ : ProcessTree) (k : Nat) : Prop :=
  k < σ.processes.length ∧ σ.get k = none

theorem exitedWith_eq_some : σ.exitedWith k = some exitCode ↔
    ∃ p, σ.get k = some p ∧ p.isZombie = true ∧ p.exitCode = exitCode := by
  rw [exitedWith]
  cases σ.get k with
  | none => simp
  | some p => cases hz : p.isZombie <;> simp [hz]

theorem exitedWith_of_live (h : σ.Live i process) : σ.exitedWith i = none := by
  simp [exitedWith, h.1, h.2]

theorem exitedWith_map {g : ProcessControlBlock → ProcessControlBlock}
    (h : σ'.get k = (σ.get k).map g)
    (hg : ∀ p, (g p).isZombie = p.isZombie ∧ (g p).exitCode = p.exitCode) :
    σ'.exitedWith k = σ.exitedWith k := by
  rw [exitedWith, h, exitedWith]
  cases σ.get k with
  | none => rfl
  | some p => simp [hg p]

theorem gone_map {g : ProcessControlBlock → ProcessControlBlock}
    (hlen : σ.processes.length ≤ σ'.processes.length) (h : σ'.get k = (σ.get k).map g)
    (hgone : σ.Gone k) : σ'.Gone k :=
  ⟨Nat.lt_of_lt_of_le hgone.1 hlen, by rw [h, hgone.2]; rfl⟩

/-- What one step does to the tree; a step without an event leaves the exited and the
freed processes alone. -/
inductive Effect (σ σ' : ProcessTree) : List Event → Prop where
  | silent (hexited : ∀ k, σ'.exitedWith k = σ.exitedWith k)
      (hgone : ∀ k, σ.Gone k → σ'.Gone k) : Effect σ σ' []
  | exited {i : Nat} {process : ProcessControlBlock} {exitCode : Int} (hlive : σ.Live i process)
      (h : Exited σ σ' i process exitCode) : Effect σ σ' [.exited i exitCode]
  | reaped {i : Nat} {process child : ProcessControlBlock} {index : Nat} {pid : Int}
      {memory : UserMemory} (hlive : σ.Live i process) (hmem : index ∈ process.children)
      (hchild : σ.get index = some child) (hz : child.isZombie = true)
      (h : Reaped σ σ' i process index memory) :
      Effect σ σ' [.reported index pid child.exitCode]

theorem effect_self (σ : ProcessTree) : Effect σ σ [] :=
  .silent (fun _ => rfl) fun _ hgone => hgone

theorem effect_update (i : Nat) (f : ProcessControlBlock → ProcessControlBlock)
    (hf : ∀ p, (f p).isZombie = p.isZombie ∧ (f p).exitCode = p.exitCode) :
    Effect σ (σ.update i f) [] := by
  have hcell : ∀ k, ∃ g, (σ.update i f).get k = (σ.get k).map g ∧
      ∀ p, (g p).isZombie = p.isZombie ∧ (g p).exitCode = p.exitCode := by
    intro k
    rw [get_update]
    by_cases hk : i = k
    · exact ⟨f, if_pos hk, hf⟩
    · exact ⟨id, by rw [if_neg hk, Option.map_id, id], fun p => ⟨rfl, rfl⟩⟩
  refine .silent (fun k => ?_) fun k hgone => ?_
  · obtain ⟨g, hget, hg⟩ := hcell k
    exact exitedWith_map hget hg
  · obtain ⟨g, hget, -⟩ := hcell k
    exact gone_map (by simp) hget hgone

theorem Forked.effect (hlive : σ.Live i process) (hfork : Forked σ σ' i process child) :
    Effect σ σ' [] := by
  refine .silent (fun k => ?_) fun k hgone => ?_
  · by_cases hk : k = σ.processes.length
    · subst hk
      simp [exitedWith, hfork.get_new, hfork.isZombie, get_length]
    · obtain ⟨children, hget⟩ := hfork.get_old hlive.1 hk
      exact exitedWith_map hget fun _ => ⟨rfl, rfl⟩
  · obtain ⟨children, hget⟩ := hfork.get_old hlive.1 (Nat.ne_of_lt hgone.1)
    exact gone_map (by rw [hfork.length]; omega) hget hgone

theorem ne_initproc_of_exit (h : σ.exitCurrentAndRunNext i exitCode = .ok σ') : i ≠ initproc := by
  rintro rfl
  rw [exitCurrentAndRunNext] at h
  split at h
  · cases h
  · split at h
    · cases h
    · simp at h

theorem exit_effect (h : Inv σ) (hlive : σ.Live i process)
    (hexit : σ.exitCurrentAndRunNext i exitCode = .ok σ') :
    Inv σ' ∧ Effect σ σ' [.exited i exitCode] := by
  have hi := ne_initproc_of_exit hexit
  obtain ⟨σ₁, heq, hexited⟩ := exitCurrentAndRunNext_eq h hlive.1 hlive.2 hi exitCode
  obtain rfl := Except.ok.inj (hexit.symm.trans heq)
  exact ⟨hexited.inv hlive.1 h hi, .exited hlive hexited⟩

theorem sysKill_effect (pid : Nat) (signal : SignalFlags) :
    Effect σ (σ.sysKill pid signal).1 [] := by
  rw [sysKill]
  split
  · exact effect_self σ
  · split
    · exact effect_self σ
    · refine effect_update _ _ ?_
      exact fun _ => ⟨rfl, rfl⟩

theorem waitpid_effect (h : Inv σ) {process' : ProcessControlBlock} {result : Int}
    (hlive : σ.Live i process) (hfind : σ.findExited process.children pid = some index)
    (hwait : σ.sysWaitpid i pid exitCodePtr = .ok (σ', result)) (hself : σ'.get i = some process')
    (hcode : process'.memory exitCodePtr = some exitCode) :
    Inv σ' ∧ Effect σ σ' [.reported index result exitCode] := by
  obtain ⟨hmem, -, child, hchild, hz⟩ := findExited_eq_some hfind
  have hexited := sysWaitpid_exited h hlive.1 exitCodePtr hfind hchild
  cases hwrite : writeExitCode process.memory exitCodePtr child.exitCode with
  | error panic =>
    simp only [hwrite] at hexited
    rw [hwait] at hexited
    exact absurd hexited (by simp)
  | ok memory =>
    simp only [hwrite] at hexited
    obtain ⟨σ₁, heq, hreap⟩ := hexited
    rw [hwait, Except.ok.injEq, Prod.mk.injEq] at heq
    obtain ⟨rfl, -⟩ := heq
    -- the code that the caller finds in its memory is the child's
    cases hreap.get_self.symm.trans hself
    rw [writeExitCode_eq hwrite] at hcode
    obtain rfl : child.exitCode = exitCode := by simpa using hcode
    exact ⟨hreap.inv h hlive.1 hmem hchild hz, .reaped hlive hmem hchild hz hreap⟩

theorem sysWaitpid_of_findExited_none (h : Inv σ) (hp : σ.get i = some process)
    (hfind : σ.findExited process.children pid = none) :
    ∃ result, σ.sysWaitpid i pid exitCodePtr = .ok (σ, result) := by
  by_cases hmatch : ∃ c ∈ process.children, σ.matchesPid pid c = true
  · exact ⟨-2, sysWaitpid_running h hp _ hmatch hfind⟩
  · refine ⟨-1, sysWaitpid_noMatch hp _ fun c hc => ?_⟩
    by_contra hne
    exact hmatch ⟨c, hc, by simpa using hne⟩

theorem Step.effect {events : List Event} (h : Inv σ) (hstep : Step σ events σ') :
    Inv σ' ∧ Effect σ σ' events := by
  cases hstep with
  | fork hlive hfork =>
    rcases sysFork_eq h hlive.1 with hfull | ⟨σ₁, child, heq, hforked⟩
    · rw [hfull] at hfork
      cases hfork
    · obtain ⟨rfl, -⟩ := Prod.mk.inj (Except.ok.inj (hfork.symm.trans heq))
      exact ⟨hforked.inv hlive.1 h hlive.2, hforked.effect hlive⟩
  | exec hlive image =>
    refine ⟨h.sysExec _ image, ?_⟩
    cases image with
    | none => exact effect_self σ
    | some image =>
      refine effect_update _ _ ?_
      exact fun _ => ⟨rfl, rfl⟩
  | kill hlive pid signal => exact ⟨h.sysKill pid signal, sysKill_effect pid signal⟩
  | fault hlive signal =>
    refine ⟨h.currentAddSignal _ signal, effect_update _ _ ?_⟩
    exact fun _ => ⟨rfl, rfl⟩
  | exit hlive exitCode hexit => exact exit_effect h hlive hexit
  | signal hlive hfatal hexit => exact exit_effect h hlive hexit
  | waitpidNone hlive hfind hwait =>
    obtain ⟨result, heq⟩ := sysWaitpid_of_findExited_none h hlive.1 hfind
    obtain ⟨rfl, -⟩ := Prod.mk.inj (Except.ok.inj (hwait.symm.trans heq))
    exact ⟨h, effect_self _⟩
  | waitpid hlive hfind hwait hself hcode => exact waitpid_effect h hlive hfind hwait hself hcode

theorem Run.inv {log : List Event} (h : Run σ log) : Inv σ := by
  induction h with
  | boot memory => exact inv_boot memory
  | step _ hstep ih => exact (hstep.effect ih).1

/-! ## The log along a run -/

structure LogInv (σ : ProcessTree) (log : List Event) : Prop where
  reported : ∀ c pid code, .reported c pid code ∈ log → σ.Gone c ∧ .exited c code ∈ log
  exited : ∀ c code, .exited c code ∈ log →
    σ.exitedWith c = some code ∨ ∃ pid, .reported c pid code ∈ log
  zombie : ∀ c code, σ.exitedWith c = some code → .exited c code ∈ log
  reportedOnce : ∀ c, log.countP (Event.isReportOf c) ≤ 1
  exitedOnce : ∀ c, log.countP (Event.isExitOf c) ≤ 1

theorem Exited.exitedWith_eq (h : Exited σ σ' i process exitCode) (k : Nat) :
    σ'.exitedWith k = if k = i then some exitCode else σ.exitedWith k := by
  by_cases hk : k = i
  · subst hk
    simp [exitedWith, h.get_self]
  · obtain ⟨parent, children, hget⟩ := h.get_old hk
    rw [if_neg hk]
    exact exitedWith_map hget fun _ => ⟨rfl, rfl⟩

theorem Exited.gone (h : Exited σ σ' i process exitCode) (hp : σ.get i = some process)
    (hgone : σ.Gone k) : σ'.Gone k := by
  have hk : k ≠ i := by
    rintro rfl
    rw [hgone.2] at hp
    cases hp
  obtain ⟨parent, children, hget⟩ := h.get_old hk
  exact gone_map (Nat.le_of_eq h.length.symm) hget hgone

theorem Reaped.exitedWith_eq (h : Reaped σ σ' i process index memory)
    (hp : σ.get i = some process) (k : Nat) :
    σ'.exitedWith k = if k = index then none else σ.exitedWith k := by
  by_cases hk : k = index
  · subst hk
    simp [exitedWith, h.get_child]
  · obtain ⟨children, memory', hget⟩ := h.get_old hp hk
    rw [if_neg hk]
    exact exitedWith_map hget fun _ => ⟨rfl, rfl⟩

theorem Reaped.gone (h : Reaped σ σ' i process index memory) (hp : σ.get i = some process)
    (hgone : σ.Gone k) : σ'.Gone k := by
  by_cases hk : k = index
  · exact ⟨by rw [h.length]; exact hgone.1, hk ▸ h.get_child⟩
  · obtain ⟨children, memory', hget⟩ := h.get_old hp hk
    exact gone_map (Nat.le_of_eq h.length.symm) hget hgone

namespace LogInv

variable {log : List Event} (hlog : LogInv σ log)
include hlog

theorem of_silent (hexited : ∀ k, σ'.exitedWith k = σ.exitedWith k)
    (hgone : ∀ k, σ.Gone k → σ'.Gone k) : LogInv σ' log where
  reported c pid code hmem :=
    ⟨hgone c (hlog.reported c pid code hmem).1, (hlog.reported c pid code hmem).2⟩
  exited c code hmem := by
    rw [hexited c]
    exact hlog.exited c code hmem
  zombie c code hcode := hlog.zombie c code (by rw [← hexited c, hcode])
  reportedOnce := hlog.reportedOnce
  exitedOnce := hlog.exitedOnce

theorem countP_isExitOf (hlive : σ.Live i process) : log.countP (Event.isExitOf i) = 0 := by
  rw [countP_eq_zero]
  rintro (⟨c, code⟩ | ⟨c, pid, code⟩) hmem hexit
  · obtain rfl : c = i := by simpa [Event.isExitOf] using hexit
    rcases hlog.exited c code hmem with hcode | ⟨pid, hrep⟩
    · rw [exitedWith_of_live hlive] at hcode
      cases hcode
    · have hnone := (hlog.reported c pid code hrep).1.2
      rw [hlive.1] at hnone
      cases hnone
  · cases hexit

theorem exit (hlive : σ.Live i process) (hexit : Exited σ σ' i process exitCode) :
    LogInv σ' (log ++ [.exited i exitCode]) where
  reported c pid code hmem := by
    have hold : .reported c pid code ∈ log := by simpa using hmem
    obtain ⟨hgone, hex⟩ := hlog.reported c pid code hold
    exact ⟨hexit.gone hlive.1 hgone, List.mem_append_left _ hex⟩
  exited c code hmem := by
    rw [hexit.exitedWith_eq]
    rcases mem_append.mp hmem with hold | hnew
    · rcases hlog.exited c code hold with hcode | ⟨pid, hrep⟩
      · left
        rw [if_neg, hcode]
        rintro rfl
        rw [exitedWith_of_live hlive] at hcode
        cases hcode
      · exact Or.inr ⟨pid, List.mem_append_left _ hrep⟩
    · obtain ⟨rfl, rfl⟩ : c = i ∧ code = exitCode := by simpa using hnew
      exact Or.inl (if_pos rfl)
  zombie c code hcode := by
    rw [hexit.exitedWith_eq] at hcode
    split at hcode
    · next heq =>
      cases hcode
      simp [heq]
    · exact List.mem_append_left _ (hlog.zombie c code hcode)
  reportedOnce c := by
    rw [countP_append]
    exact hlog.reportedOnce c
  exitedOnce c := by
    rw [countP_append, countP_singleton]
    by_cases hc : i = c
    · subst hc
      rw [hlog.countP_isExitOf hlive]
      split <;> omega
    · have hother := hlog.exitedOnce c
      simp [Event.isExitOf, hc, hother]

theorem countP_isReportOf {p : ProcessControlBlock} (hk : σ.get k = some p) :
    log.countP (Event.isReportOf k) = 0 := by
  rw [countP_eq_zero]
  rintro (⟨c, code⟩ | ⟨c, pid, code⟩) hmem hrep
  · cases hrep
  · obtain rfl : c = k := by simpa [Event.isReportOf] using hrep
    have hnone := (hlog.reported c pid code hmem).1.2
    rw [hk] at hnone
    cases hnone

theorem report (hlive : σ.Live i process) (hchild : σ.get index = some child)
    (hz : child.isZombie = true) (hreap : Reaped σ σ' i process index memory) :
    LogInv σ' (log ++ [.reported index pid child.exitCode]) where
  reported c pid' code hmem := by
    rcases mem_append.mp hmem with hold | hnew
    · obtain ⟨hgone, hex⟩ := hlog.reported c pid' code hold
      exact ⟨hreap.gone hlive.1 hgone, List.mem_append_left _ hex⟩
    · obtain ⟨rfl, -, rfl⟩ : c = index ∧ pid' = pid ∧ code = child.exitCode := by
        simpa using hnew
      have hex := hlog.zombie c child.exitCode (by simp [exitedWith, hchild, hz])
      obtain ⟨hlt, -⟩ := List.getElem?_eq_some_iff.mp (get_eq_some.mp hchild)
      exact ⟨⟨by rw [hreap.length]; exact hlt, hreap.get_child⟩, List.mem_append_left _ hex⟩
  exited c code hmem := by
    have hold : .exited c code ∈ log := by simpa using hmem
    rw [hreap.exitedWith_eq hlive.1]
    rcases hlog.exited c code hold with hcode | ⟨pid', hrep⟩
    · by_cases hc : c = index
      · subst hc
        obtain rfl : child.exitCode = code := by
          simpa [exitedWith, hchild, hz] using hcode
        exact Or.inr ⟨pid, by simp⟩
      · rw [if_neg hc]
        exact Or.inl hcode
    · exact Or.inr ⟨pid', List.mem_append_left _ hrep⟩
  zombie c code hcode := by
    rw [hreap.exitedWith_eq hlive.1] at hcode
    split at hcode
    · cases hcode
    · exact List.mem_append_left _ (hlog.zombie c code hcode)
  reportedOnce c := by
    rw [countP_append, countP_singleton]
    by_cases hc : index = c
    · subst hc
      rw [hlog.countP_isReportOf hchild]
      split <;> omega
    · have hother := hlog.reportedOnce c
      simp [Event.isReportOf, hc, hother]
  exitedOnce c := by
    rw [countP_append]
    exact hlog.exitedOnce c

end LogInv

theorem Run.logInv {log : List Event} (h : Run σ log) : LogInv σ log := by
  induction h with
  | boot memory =>
    refine ⟨by simp, by simp, fun c code hcode => ?_, by simp, by simp⟩
    cases c <;> simp [exitedWith, get, ProcessTree.boot] at hcode
  | step hrun hstep ih =>
    cases (hstep.effect hrun.inv).2 with
    | silent hexited hgone =>
      rw [append_nil]
      exact ih.of_silent hexited hgone
    | exited hlive hexit => exact ih.exit hlive hexit
    | reaped hlive hmem hchild hz hreap => exact ih.report hlive hchild hz hreap

/-! ## Main results -/

theorem wrapIsize_pid {pid : Nat} (h : pid < kernelHeapSize) : wrapIsize pid = pid := by
  have hlt : pid < 0x200000 := h
  exact wrapIsize_eq (by omega) (by omega)

theorem Inv.child_pid_ne_zero (h : Inv σ) (hfork : Forked σ σ' i process child) :
    child.pid ≠ 0 := by
  obtain ⟨init, hinit, hpid, -⟩ := h.init
  intro hzero
  exact hfork.pid_notMem (mem_pids.mpr ⟨initproc, init, hinit, by rw [hpid, hzero]⟩)

/-- In every state of a run: identifiers are distinct; `PID2PCB` maps exactly the
processes that have not exited, under their own identifiers; every process but the
initial one is in the children list of one process, which has not exited, once, and
has it as its parent.  So the identifier of a live process can be removed from
`PID2PCB`, a process other than the initial one exits without a panic, `fork` does
not return 0 and fails only for want of memory, and `waitpid` fails only for its
pointer, never for the strong count. -/
theorem process_tree_consistent {log : List Event} (h : Run σ log) :
    (∀ i j p q, σ.get i = some p → σ.get j = some q → p.pid = q.pid → i = j) ∧
    (∀ pid i, σ.pid2process pid = some i ↔ ∃ p, σ.Live i p ∧ p.pid = pid) ∧
    (∀ i p, σ.get i = some p → i ≠ initproc →
      ∃ j q, σ.Live j q ∧ q.children.count i = 1 ∧ p.parent = some j ∧
        ∀ k r, σ.get k = some r → k ≠ j → i ∉ r.children) ∧
    (∀ i process, σ.Live i process →
      (∃ σ', σ.removeFromPid2process process.pid = .ok σ') ∧
      (i ≠ initproc → ∀ exitCode, ∃ σ', σ.exitCurrentAndRunNext i exitCode = .ok σ') ∧
      (σ.sysFork i = .error .heapExhausted ∨
        ∃ σ' result, σ.sysFork i = .ok (σ', result) ∧ result ≠ 0) ∧
      ∀ pid exitCodePtr panic,
        σ.sysWaitpid i pid exitCodePtr = .error panic → panic = .badAddress) := by
  have hinv := h.inv
  refine ⟨fun i j p q hp hq => hinv.eq_of_pid_eq hp hq, fun pid i => ?_, fun i p hp hi => ?_,
    fun i process hlive => ⟨?_, fun hi exitCode => ?_, ?_, fun pid exitCodePtr panic hpanic => ?_⟩⟩
  · rw [hinv.pid2process_eq_some]
    exact exists_congr fun p => and_assoc.symm
  · obtain ⟨j, q, hq, hz, hcount, hparent, honly⟩ := hinv.exists_parent hp hi
    exact ⟨j, q, ⟨hq, hz⟩, hcount, hparent, honly⟩
  · rw [removeFromPid2process, hinv.pid2process_eq_some.mpr ⟨process, hlive.1, hlive.2, rfl⟩]
    exact ⟨_, rfl⟩
  · obtain ⟨σ', hexit, -⟩ := exitCurrentAndRunNext_eq hinv hlive.1 hlive.2 hi exitCode
    exact ⟨σ', hexit⟩
  · rcases sysFork_eq hinv hlive.1 with hfull | ⟨σ', child, hok, hfork⟩
    · exact Or.inl hfull
    · have hchild := (hfork.inv hlive.1 hinv hlive.2).pid_lt hfork.get_new
      have hne := hinv.child_pid_ne_zero hfork
      refine Or.inr ⟨σ', _, hok, ?_⟩
      rw [wrapIsize_pid hchild]
      omega
  · cases hfind : σ.findExited process.children pid with
    | none =>
      obtain ⟨result, hok⟩ := sysWaitpid_of_findExited_none hinv hlive.1 hfind
      rw [hok] at hpanic
      cases hpanic
    | some index =>
      obtain ⟨-, -, child, hchild, -⟩ := findExited_eq_some hfind
      have hexited := sysWaitpid_exited hinv hlive.1 exitCodePtr hfind hchild
      cases hwrite : writeExitCode process.memory exitCodePtr child.exitCode with
      | error panic' =>
        simp only [hwrite] at hexited
        rw [hexited, Except.error.injEq] at hpanic
        rw [← hpanic, writeExitCode_error hwrite]
      | ok memory =>
        simp only [hwrite] at hexited
        obtain ⟨σ', hok, -⟩ := hexited
        rw [hok] at hpanic
        cases hpanic

/-- A process whose parent has exited is a child of the initial process. -/
theorem process_tree_consistent_orphan :
    ∃ σ log, Run σ log ∧ (σ.get 1).map (·.isZombie) = some true ∧ σ.pid2process 2 = some 2 ∧
      σ.pid2process 1 = none ∧
      ∃ j q, σ.Live j q ∧ q.children.count 2 = 1 ∧ (σ.get 2).bind (·.parent) = some j := by
  have h := (Run.boot fun _ => none).step (.fork ⟨rfl, rfl⟩ (i := 0) rfl)
  have h := h.step (.fork ⟨rfl, rfl⟩ (i := 1) rfl)
  have h := h.step (.exit ⟨rfl, rfl⟩ (i := 1) 7 rfl)
  obtain ⟨j, q, hq, hcount, hparent, -⟩ :=
    (process_tree_consistent h).2.2.1 2 _ rfl (by decide)
  exact ⟨_, _, h, rfl, rfl, rfl, j, q, hq, hcount, hparent⟩

/-- The child is one that a call of `waitpid` with `pid` is about. -/
def Matches (σ : ProcessTree) (pid : Int) (child : Nat) : Prop :=
  pid = -1 ∨ ∃ p, σ.get child = some p ∧ (p.pid : Int) = pid

/-- The cast of `pid` to `usize` matches no child by accident. -/
theorem Inv.matchesPid_iff (h : Inv σ) (hpid : -2 ^ 63 ≤ pid ∧ pid < 2 ^ 63) (child : Nat) :
    σ.matchesPid pid child = true ↔ σ.Matches pid child := by
  rw [matchesPid, decide_eq_true_iff, Matches]
  cases hget : σ.get child with
  | none => simp
  | some p =>
    have hlt : p.pid < 0x200000 := h.pid_lt hget
    have hcast : p.pid = asUsize pid ↔ (p.pid : Int) = pid := by
      rw [asUsize]
      omega
    simp [hcast]

theorem Inv.findExited_eq_none_iff (h : Inv σ) (hpid : -2 ^ 63 ≤ pid ∧ pid < 2 ^ 63)
    {children : List Nat} :
    σ.findExited children pid = none ↔
      ∀ c ∈ children, σ.Matches pid c → σ.exitedWith c = none := by
  rw [findExited, find?_eq_none]
  refine forall₂_congr fun c hc => ?_
  rw [Bool.and_eq_true, h.matchesPid_iff hpid, isExited_iff, exitedWith]
  cases hget : σ.get c with
  | none => simp
  | some p => cases hz : p.isZombie <;> simp [hz]

/-- What a call of `waitpid` with a good pointer returns. -/
theorem Inv.sysWaitpid_eq (h : Inv σ) (hp : σ.get i = some process)
    (hpid : -2 ^ 63 ≤ pid ∧ pid < 2 ^ 63) (halign : exitCodePtr % 4 = 0)
    (hmapped : (process.memory exitCodePtr).isSome) :
    (σ.sysWaitpid i pid exitCodePtr = .ok (σ, -1) ∧
      ∀ c ∈ process.children, ¬σ.Matches pid c) ∨
    (σ.sysWaitpid i pid exitCodePtr = .ok (σ, -2) ∧
      (∃ c ∈ process.children, σ.Matches pid c) ∧
      ∀ c ∈ process.children, σ.Matches pid c → σ.exitedWith c = none) ∨
    ∃ σ' c child, σ.sysWaitpid i pid exitCodePtr = .ok (σ', (child.pid : Int)) ∧
      c ∈ process.children ∧ σ.get c = some child ∧ child.isZombie = true ∧ σ.Matches pid c ∧
      Reaped σ σ' i process c fun address =>
        if address = exitCodePtr then some child.exitCode else process.memory address := by
  by_cases hmatch : ∃ c ∈ process.children, σ.matchesPid pid c = true
  · right
    cases hfind : σ.findExited process.children pid with
    | none =>
      left
      refine ⟨sysWaitpid_running h hp _ hmatch hfind, ?_, (h.findExited_eq_none_iff hpid).mp hfind⟩
      obtain ⟨c, hc, hm⟩ := hmatch
      exact ⟨c, hc, (h.matchesPid_iff hpid c).mp hm⟩
    | some c =>
      right
      obtain ⟨hmem, hm, child, hchild, hz⟩ := findExited_eq_some hfind
      have hexited := sysWaitpid_exited h hp exitCodePtr hfind hchild
      rw [writeExitCode, if_pos ⟨halign, hmapped⟩] at hexited
      obtain ⟨σ', hok, hreap⟩ := hexited
      rw [wrapIsize_pid (h.pid_lt hchild)] at hok
      exact ⟨σ', c, child, hok, hmem, hchild, hz, (h.matchesPid_iff hpid c).mp hm, hreap⟩
  · left
    refine ⟨sysWaitpid_noMatch hp _ fun c hc => ?_, fun c hc hm => hmatch ⟨c, hc, ?_⟩⟩
    · by_contra hne
      exact hmatch ⟨c, hc, by simpa using hne⟩
    · exact (h.matchesPid_iff hpid c).mpr hm

theorem Inv.exists_parent_of_exitedWith (h : Inv σ) {c : Nat}
    (hcode : σ.exitedWith c = some exitCode) : ∃ j q, σ.Live j q ∧ q.children.count c = 1 := by
  obtain ⟨p, hp, hz, -⟩ := exitedWith_eq_some.mp hcode
  have hne : c ≠ initproc := by
    rintro rfl
    obtain ⟨init, hinit, -, hlive⟩ := h.init
    cases hp.symm.trans hinit
    rw [hz] at hlive
    cases hlive
  obtain ⟨j, q, hq, hlive, hcount, -⟩ := h.exists_parent hp hne
  exact ⟨j, q, ⟨hq, hlive⟩, hcount⟩

/-- Exit codes are delivered exactly once.  A call of `waitpid` by a live process,
with a pointer to an aligned mapped word, returns -1 if no child matches, -2 if
children match and none of them has exited, and otherwise removes one exited
matching child, returns its identifier and stores the code of its exit.  Over the
whole run every process exits at most once and is reported at most once, with the
code of its exit; until it is reported, it is a child of a live process. -/
theorem exit_codes_delivered_once {log : List Event} (h : Run σ log) :
    (∀ i process, σ.Live i process → ∀ pid exitCodePtr, -2 ^ 63 ≤ pid ∧ pid < 2 ^ 63 →
      exitCodePtr % 4 = 0 → (process.memory exitCodePtr).isSome →
      ∃ σ' result, σ.sysWaitpid i pid exitCodePtr = .ok (σ', result) ∧
        (result = -1 ↔ ∀ c ∈ process.children, ¬σ.Matches pid c) ∧
        (result = -2 ↔ (∃ c ∈ process.children, σ.Matches pid c) ∧
          ∀ c ∈ process.children, σ.Matches pid c → σ.exitedWith c = none) ∧
        (result = -1 ∨ result = -2 → σ' = σ) ∧
        (result ≠ -1 → result ≠ -2 → ∃ c ∈ process.children, ∃ child exitCode,
          σ.get c = some child ∧ σ.Matches pid c ∧ result = child.pid ∧
          .exited c exitCode ∈ log ∧ σ'.get c = none ∧
          σ'.get i = some { process with
            children := process.children.erase c
            memory := fun address =>
              if address = exitCodePtr then some exitCode else process.memory address } ∧
          ∀ k, k ≠ c → k ≠ i → σ'.get k = σ.get k)) ∧
    (∀ c, log.countP (Event.isExitOf c) ≤ 1 ∧ log.countP (Event.isReportOf c) ≤ 1) ∧
    (∀ c pid exitCode, .reported c pid exitCode ∈ log → .exited c exitCode ∈ log) ∧
    ∀ c exitCode, .exited c exitCode ∈ log →
      (∃ pid, .reported c pid exitCode ∈ log) ∨
      (σ.exitedWith c = some exitCode ∧ ∃ j q, σ.Live j q ∧ q.children.count c = 1) := by
  have hinv := h.inv
  have hlog := h.logInv
  refine ⟨fun i process hlive pid exitCodePtr hpid halign hmapped => ?_,
    fun c => ⟨hlog.exitedOnce c, hlog.reportedOnce c⟩,
    fun c pid exitCode hmem => (hlog.reported c pid exitCode hmem).2, fun c exitCode hmem => ?_⟩
  · rcases hinv.sysWaitpid_eq hlive.1 hpid halign hmapped with
      ⟨hok, hnone⟩ | ⟨hok, hmatch, hrunning⟩ |
        ⟨σ', c, child, hok, hmem, hchild, hz, hmatch, hreap⟩
    · refine ⟨σ, -1, hok, by simpa using hnone, ?_, fun _ => rfl, by simp⟩
      refine iff_of_false (by decide) fun hrun => ?_
      obtain ⟨c, hc, hm⟩ := hrun.1
      exact hnone c hc hm
    · refine ⟨σ, -2, hok, ?_, iff_of_true rfl ⟨hmatch, hrunning⟩, fun _ => rfl, by simp⟩
      refine iff_of_false (by decide) fun hnone => ?_
      obtain ⟨c, hc, hm⟩ := hmatch
      exact hnone c hc hm
    · have hcode : σ.exitedWith c = some child.exitCode :=
        exitedWith_eq_some.mpr ⟨child, hchild, hz, rfl⟩
      refine ⟨σ', child.pid, hok, iff_of_false (by omega) fun hnone => hnone c hmem hmatch,
        iff_of_false (by omega) fun hrun => ?_, by omega, fun _ _ => ?_⟩
      · rw [hrun.2 c hmem hmatch] at hcode
        cases hcode
      · exact ⟨c, hmem, child, child.exitCode, hchild, hmatch, rfl, hlog.zombie c _ hcode,
          hreap.get_child, hreap.get_self, hreap.get_of_ne⟩
  · rcases hlog.exited c exitCode hmem with hcode | hrep
    · obtain ⟨j, q, hq, hcount⟩ := hinv.exists_parent_of_exitedWith hcode
      exact Or.inr ⟨hcode, j, q, hq, hcount⟩
    · exact Or.inl hrep

/-- The initial process waits for its grandchild, an orphan, and finds the code of
its exit at the address that it passed. -/
theorem exit_codes_delivered_once_orphan :
    ∃ σ σ' result, Run σ [.exited 1 7, .exited 2 9] ∧
      σ.sysWaitpid 0 2 16 = .ok (σ', result) ∧ result = 2 ∧
      (σ'.get 0).bind (·.memory 16) = some 9 := by
  have h := (Run.boot fun address => if address = 16 then some 0 else none).step
    (.fork ⟨rfl, rfl⟩ (i := 0) rfl)
  have h := h.step (.fork ⟨rfl, rfl⟩ (i := 1) rfl)
  have h := h.step (.exit ⟨rfl, rfl⟩ (i := 1) 7 rfl)
  have h := h.step (.exit ⟨rfl, rfl⟩ (i := 2) 9 rfl)
  obtain ⟨σ', result, hok, hnone, hrunning, -, hreport⟩ :=
    (exit_codes_delivered_once h).1 0 _ ⟨rfl, rfl⟩ 2 16 (by decide) (by decide) rfl
  obtain ⟨c, hc, child, code, hchild, hmatch, hpid, hexit, -, hself, -⟩ := hreport
    (fun heq => hnone.mp heq 2 (by decide) (Or.inr ⟨_, rfl, by decide⟩))
    (fun heq => absurd ((hrunning.mp heq).2 2 (by decide) (Or.inr ⟨_, rfl, by decide⟩))
      (by decide))
  -- the other child has identifier 1
  obtain rfl : c = 2 := by
    rcases List.mem_cons.mp hc with rfl | hc
    · obtain hall | ⟨p, hp, hpid⟩ := hmatch
      · exact absurd hall (by decide)
      · cases hp
        exact absurd hpid (by decide)
    · exact List.mem_singleton.mp hc
  cases hchild
  obtain rfl : code = 9 := by simpa using hexit
  exact ⟨_, σ', result, h, hok, hpid, by rw [hself]; rfl⟩

end ProcessTree

end RCore.Task
