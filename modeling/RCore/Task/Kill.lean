import RCore.Task.Traps

/-!
# Processes that are killed

`sys_kill` posts a signal, and the target checks for it at the end of `trap_handler`.  So
a process that has run before does not come back to user mode.  The first thread of a
process that has not run yet goes there without a check.
-/

namespace RCore.Task.System

open RCore.Lib.History List Option Kernel

variable {events es : List Nat} {τ : System}

variable {σ σ' : System} {task process : Nat} {inner : TaskControlBlock}

/-! ## A process that a signal has reached -/

/-- The process has a fatal signal, and its threads are in `trap_handler`. -/
structure Condemned (σ : System) (process : Nat) : Prop where
  doomed : σ.tree.Doomed process
  handler : ∀ t, σ.kernel.processOf t = some process → σ.mode t = .handler

theorem Condemned.exists_signal (h : Inv σ) (hcondemned : σ.Condemned process)
    (hcur : σ.kernel.currentTask = some (task, inner)) (hprocess : inner.process = process) :
    ∃ errno msg, σ.checkSignalsOfCurrent = some (some (errno, msg)) := by
  obtain ⟨pcb, hlive⟩ := exists_live_of_current h hcur
  have hfatal := hcondemned.doomed.2 pcb (hprocess ▸ hlive.1)
  obtain ⟨⟨errno, msg⟩, herror⟩ := ne_none_iff_exists'.mp hfatal
  refine ⟨errno, msg, ?_⟩
  simp only [checkSignalsOfCurrent, hcur, hlive.1, herror, do_some]

theorem Condemned.enter (h : Inv σ) (hcondemned : σ.Condemned process)
    (hcur : σ.kernel.currentTask = some (task, inner))
    (hclear : σ.mode task = .start ∨
      σ.mode task = .handler ∧ σ.checkSignalsOfCurrent = some none) :
    inner.process ≠ process := by
  have hinner := (currentTask_eq_some hcur).2
  intro heq
  rcases hclear with hstart | ⟨-, hclear⟩
  · have hhandler := hcondemned.handler task (heq ▸ Kernel.processOf_eq hinner)
    rw [hstart] at hhandler
    cases hhandler
  · obtain ⟨errno, msg, hsignal⟩ := hcondemned.exists_signal h hcur heq
    rw [hclear] at hsignal
    cases hsignal

theorem Condemned.old {t new : Nat} {events : List Event} (h : Inv σ)
    (hcondemned : σ.Condemned process) (hcur : σ.kernel.currentTask = some (task, inner))
    (hmode : σ.mode task = .user ∨
      σ.mode task = .handler ∧ σ'.kernel.tasks.length = σ.kernel.tasks.length)
    (hworks : Works (σ.setMode task .handler) σ' task new events)
    (ht : σ'.kernel.processOf t = some process) : t < σ.kernel.tasks.length := by
  have hinner := (currentTask_eq_some hcur).2
  have hlt' := lt_length_of_processOf ht
  rcases hmode with huser | ⟨-, hlen⟩
  · by_contra hge
    obtain ⟨inner', hinner', hprocess⟩ := map_eq_some_iff.mp ht
    rcases hworks.created_process hinner (Nat.le_of_not_lt hge) hinner' with heq | ⟨hnew, -⟩
    · have hown := Kernel.processOf_eq hinner
      rw [← heq, hprocess] at hown
      have hhandler := hcondemned.handler task hown
      rw [huser] at hhandler
      cases hhandler
    · have hsmall := hcondemned.doomed.1
      have hlength : (σ.setMode task .handler).kernel.processes.length =
          σ.tree.processes.length := h.length
      omega
  · omega

theorem Condemned.pass (h : Inv σ) (hcondemned : σ.Condemned process) (hpass : Pass σ es σ') :
    σ'.Condemned process ∧ process ∉ es := by
  have hold : ∀ t < σ.kernel.tasks.length, σ'.kernel.processOf t = some process →
      σ.mode t = .handler := by
    intro t ht hprocess
    rw [hpass.processOf_eq ht] at hprocess
    exact hcondemned.handler t hprocess
  cases hpass with
  | idle hidle =>
    have hframe := (Chosen.runTasks hidle).observed.frame rfl
    refine ⟨⟨hcondemned.doomed, fun t ht => hold t ?_ ht⟩, not_mem_nil⟩
    rw [← hframe.length_tasks]
    exact lt_length_of_processOf ht
  | @enter task inner hcur huser hclear =>
    have hinner := (currentTask_eq_some hcur).2
    have hne := hcondemned.enter h hcur hclear
    refine ⟨⟨hcondemned.doomed, fun t ht => ?_⟩, ?_⟩
    · have htask : t ≠ task := by
        rintro rfl
        exact hne (Option.some.inj ((Kernel.processOf_eq hinner).symm.trans ht))
      rw [mode_setMode_of_ne σ .user htask]
      exact hcondemned.handler t ht
    · exact fun hmem => hne (mem_singleton.mp hmem).symm
  | @work _ task new inner events hcur hmode hworks =>
    refine ⟨⟨hcondemned.doomed.grows hworks.grows, fun t ht => ?_⟩, not_mem_nil⟩
    rw [hworks.mode]
    by_cases htask : t = task
    · rw [htask, mode_setMode_self]
    · rw [mode_setMode_of_ne σ .handler htask]
      exact hold t (hcondemned.old h hcur hmode hworks ht) ht

theorem Condemned.run (h : Inv σ) (hcondemned : σ.Condemned process)
    (hrun : Run (· = σ) Step events τ) : Inv τ ∧ τ.Condemned process ∧ process ∉ events := by
  induction hrun with
  | start heq =>
    subst heq
    exact ⟨h, hcondemned, not_mem_nil⟩
  | step _ hstep ih =>
    obtain ⟨hinv, hcondemned, hpast⟩ := ih
    have hpass := hstep.pass hinv
    obtain ⟨hnext, hnow⟩ := hcondemned.pass hinv hpass
    exact ⟨hpass.inv hinv, hnext, fun hmem => (mem_append.mp hmem).elim hpast hnow⟩

theorem processOf_of_run (h : Inv σ) (hprocess : σ.kernel.processOf task = some process)
    (hrun : Run (· = σ) Step events τ) : τ.kernel.processOf task = some process := by
  have hboth : Inv τ ∧ τ.kernel.processOf task = some process := by
    induction hrun with
    | start heq => exact heq ▸ ⟨h, hprocess⟩
    | step _ hstep ih =>
      obtain ⟨hinv, hprocess⟩ := ih
      have hpass := hstep.pass hinv
      refine ⟨hpass.inv hinv, ?_⟩
      rw [hpass.processOf_eq (lt_length_of_processOf hprocess), hprocess]
  exact hboth.2

theorem Pass.start (hpass : Pass σ es σ') (hprocess : σ.kernel.processOf task = some process)
    (hstart : σ.mode task = .start) (hout : process ∉ es) :
    σ'.kernel.processOf task = some process ∧ σ'.mode task = .start := by
  refine ⟨(hpass.processOf_eq (lt_length_of_processOf hprocess)).trans hprocess, ?_⟩
  cases hpass with
  | idle => exact hstart
  | @enter other inner hcur huser hclear =>
    have hinner := (currentTask_eq_some hcur).2
    have hne : task ≠ other := by
      rintro rfl
      have hsame := (Kernel.processOf_eq hinner).symm.trans hprocess
      exact hout (mem_singleton.mpr (Option.some.inj hsame).symm)
    rwa [mode_setMode_of_ne σ .user hne]
  | @work _ other new inner events hcur hmode hworks =>
    have hne : task ≠ other := by
      rintro rfl
      rcases hmode with hmode | ⟨hmode, -⟩
      · rw [hstart] at hmode
        cases hmode
      · rw [hstart] at hmode
        cases hmode
    rwa [hworks.mode, mode_setMode_of_ne σ .handler hne]

theorem start_of_run (h : Inv σ) (hprocess : σ.kernel.processOf task = some process)
    (hstart : σ.mode task = .start) (hrun : Run (· = σ) Step events τ) (hout : process ∉ events) :
    Inv τ ∧ τ.kernel.processOf task = some process ∧ τ.mode task = .start := by
  induction hrun with
  | start heq =>
    subst heq
    exact ⟨h, hprocess, hstart⟩
  | step _ hstep ih =>
    rw [mem_append, not_or] at hout
    obtain ⟨hinv, hprocess, hstart⟩ := ih hout.1
    have hpass := hstep.pass hinv
    exact ⟨hpass.inv hinv, hpass.start hprocess hstart hout.2⟩

/-! ## The kill -/

/-- The running thread calls `sys_kill`, and the result is zero. -/
def Kills (σ : System) (pid : Nat) (signal : SignalFlags) (σ' : System) : Prop :=
  ∃ task inner, σ.kernel.currentTask = some (task, inner) ∧ σ.mode task = .user ∧
    Handles (σ.setMode task .handler) (.userEnvCall (.kill pid signal)) σ' ∧
    (σ.tree.sysKill pid signal).2 = 0

/-- `task` is the only thread of the process that has not exited. -/
def OnlyThread (σ : System) (process task : Nat) : Prop :=
  (∃ inner, σ.kernel.tasks[task]? = some inner ∧ inner.process = process ∧
    inner.exitCode = none) ∧
  ∀ (t : Nat) (inner : TaskControlBlock), σ.kernel.tasks[t]? = some inner →
    inner.process = process → inner.exitCode = none → t = task

variable {pid : Nat} {signal : SignalFlags} {pcb : ProcessControlBlock}

theorem Kills.step (h : Kills σ pid signal σ') : Step σ [] σ' := by
  obtain ⟨task, inner, hcur, hmode, hhandles, -⟩ := h
  exact .trap _ hcur hmode hhandles

/-- The call changes the process tree only; the caller is then in `trap_handler`. -/
theorem Kills.eq (h : Kills σ pid signal σ') :
    ∃ caller, σ.kernel.current = some caller ∧ σ.mode caller = .user ∧
      (σ.tree.sysKill pid signal).2 = 0 ∧
      σ' = { σ.setMode caller .handler with tree := (σ.tree.sysKill pid signal).1 } := by
  obtain ⟨caller, inner, hcur, hmode, hhandles, hresult⟩ := h
  cases hhandles with
  | userEnvCall hcall =>
    exact ⟨caller, (currentTask_eq_some hcur).1, hmode, hresult, (Option.some.inj hcall).symm⟩

theorem Kills.condemned (h : Inv σ) (hget : σ.tree.get process = some pcb)
    (honly : σ.OnlyThread process task) (hne : signal ≠ 0) (hran : σ.mode task ≠ .start)
    (hkills : Kills σ pcb.pid signal σ') : σ'.Condemned process := by
  obtain ⟨⟨own, hown, hprocess, hnone⟩, honly⟩ := honly
  obtain ⟨log, hrun⟩ := h.tree
  obtain ⟨pcb', hlive⟩ := h.live task own hown hnone
  rw [hprocess] at hlive
  cases hget.symm.trans hlive.1
  obtain ⟨caller, hcurrent, hcaller, hresult, rfl⟩ := hkills.eq
  refine ⟨ProcessTree.doomed_sysKill hrun.inv hlive hresult hne, fun t ht => ?_⟩
  change (σ.setMode caller .handler).mode t = .handler
  by_cases htc : t = caller
  · rw [htc, mode_setMode_self]
  rw [mode_setMode_of_ne σ .handler htc]
  obtain ⟨inner, hinner, hsame⟩ := map_eq_some_iff.mp ht
  by_cases hcode : inner.exitCode = none
  · obtain rfl := honly t inner hinner hsame hcode
    -- it is not the running thread, so it is not in user mode
    cases hmode : σ.mode t with
    | start => exact absurd hmode hran
    | handler => rfl
    | user => exact absurd (Option.some.inj ((h.user t hmode).symm.trans hcurrent)) htc
  · exact h.exited t inner hinner hcode

/-- A thread of a condemned process at the end of `trap_handler` can only exit. -/
theorem Condemned.exits {errno : Int} {msg : String} (hcondemned : σ.Condemned process)
    (hcur : σ.kernel.currentTask = some (task, inner)) (hprocess : inner.process = process)
    (huser : inner.resume = .user) (hcheck : σ.checkSignalsOfCurrent = some (some (errno, msg)))
    (hstep : Step σ es σ') : σ.exitCurrentAndRunNext errno = some σ' := by
  obtain ⟨hcurrent, hinner⟩ := currentTask_eq_some hcur
  have hhandler := hcondemned.handler task (hprocess ▸ Kernel.processOf_eq hinner)
  have hinside : ∀ resume, resume ≠ .user → ¬σ.kernel.AtResume resume := by
    rintro resume hresume ⟨task', inner', hcur', rfl⟩
    cases hcur.symm.trans hcur'
    exact hresume huser
  have hmode : ∀ task' inner', σ.kernel.currentTask = some (task', inner') →
      σ.mode task' = .handler := by
    intro task' inner' hcur'
    cases hcur.symm.trans hcur'
    exact hhandler
  cases hstep with
  | runTasks hidle =>
    rw [hidle] at hcurrent
    cases hcurrent
  | gotoTrapReturn hcur' hstart =>
    rw [hmode _ _ hcur'] at hstart
    cases hstart
  | trap trap hcur' hleft =>
    rw [hmode _ _ hcur'] at hleft
    cases hleft
  | lock mutex hat => exact absurd hat (hinside _ nofun)
  | pollAgain hat => exact absurd hat (hinside _ nofun)
  | pollDone hat => exact absurd hat (hinside _ nofun)
  | signal _ _ _ hcheck' hexit =>
    rw [hcheck] at hcheck'
    cases Option.some.inj hcheck'
    exact hexit
  | trapReturn _ _ _ hcheck' =>
    rw [hcheck] at hcheck'
    cases hcheck'

/-- While its only thread does not have the processor, a process gets no other and does
not enter user mode. -/
theorem OnlyThread.pass (h : Inv σ) (honly : σ.OnlyThread process task)
    (haway : σ.kernel.current ≠ some task) (hpass : Pass σ es σ') :
    σ'.OnlyThread process task ∧ process ∉ es := by
  obtain ⟨⟨own, hown, hprocess, hnone⟩, honly⟩ := honly
  have hrunning : ∀ running inner, σ.kernel.currentTask = some (running, inner) →
      task ≠ running ∧ inner.process ≠ process := by
    intro running inner hcur
    obtain ⟨hcurrent, hinner⟩ := currentTask_eq_some hcur
    have hne : task ≠ running := fun heq => haway (heq ▸ hcurrent)
    refine ⟨hne, fun heq => hne ?_⟩
    exact (honly running inner hinner heq (exitCode_of_current h hcur)).symm
  cases hpass with
  | idle hidle =>
    have hframe := (Chosen.runTasks hidle).observed.frame rfl
    refine ⟨⟨?_, fun t inner' ht hsame hcode => ?_⟩, not_mem_nil⟩
    · obtain ⟨inner', hinner', hsame, hcode⟩ :=
        exists_of_threadOf_eq (congrFun hframe.thread task).symm hown
      exact ⟨inner', hinner', hsame.trans hprocess, hcode.trans hnone⟩
    · obtain ⟨old, hold, hprocess', hcode'⟩ :=
        exists_of_threadOf_eq (congrFun hframe.thread t) ht
      exact honly t old hold (hprocess'.trans hsame) (hcode'.trans hcode)
  | enter hcur huser hclear =>
    refine ⟨⟨⟨own, hown, hprocess, hnone⟩, honly⟩, fun hmem => ?_⟩
    exact (hrunning _ _ hcur).2 (mem_singleton.mp hmem).symm
  | @work _ running new inner events hcur hmode hworks =>
    obtain ⟨hne, hother⟩ := hrunning running inner hcur
    have hinner := (currentTask_eq_some hcur).2
    have hlt := lt_length_of_getElem? hown
    refine ⟨⟨?_, fun t inner' ht hsame hcode => ?_⟩, not_mem_nil⟩
    · obtain ⟨inner', hinner', hsame, hcode⟩ :=
        exists_of_threadOf_eq (hworks.moves.other task hne hlt).symm hown
      exact ⟨inner', hinner', hsame.trans hprocess, hcode.trans hnone⟩
    · by_cases htr : t = running
      · subst htr
        have howned : σ'.kernel.processOf t = σ.kernel.processOf t := hworks.moves.own
        rw [Kernel.processOf_eq ht, Kernel.processOf_eq hinner, hsame] at howned
        exact absurd (Option.some.inj howned).symm hother
      by_cases hold : t < σ.kernel.tasks.length
      · obtain ⟨old, hold, hprocess', hcode'⟩ :=
          exists_of_threadOf_eq (hworks.moves.other t htr hold) ht
        exact honly t old hold (hprocess'.trans hsame) (hcode'.trans hcode)
      · obtain ⟨pcb, hlive⟩ := h.live task own hown hnone
        have hsmall := ProcessTree.lt_length_of_live hlive
        rw [hprocess, ← h.length] at hsmall
        rcases hworks.created_process hinner (Nat.le_of_not_lt hold) ht with heq | ⟨hnew, -⟩
        · exact absurd (heq.symm.trans hsame) hother
        · rw [hsame] at hnew
          exact absurd hsmall (Nat.not_lt.mpr hnew)

theorem OnlyThread.run (h : Inv σ) (honly : σ.OnlyThread process task)
    (haway : ∀ events τ, Run (· = σ) Step events τ → τ.kernel.current ≠ some task)
    (hrun : Run (· = σ) Step events τ) : Inv τ ∧ τ.OnlyThread process task ∧ process ∉ events := by
  induction hrun with
  | start heq =>
    subst heq
    exact ⟨h, honly, not_mem_nil⟩
  | step hrun hstep ih =>
    obtain ⟨hinv, honly, hpast⟩ := ih
    have hpass := hstep.pass hinv
    obtain ⟨hnext, hnow⟩ := honly.pass hinv (haway _ _ hrun) hpass
    exact ⟨hpass.inv hinv, hnext, fun hmem => (mem_append.mp hmem).elim hpast hnow⟩

theorem Kills.onlyThread (hkills : Kills σ pid signal σ') (honly : σ.OnlyThread process task) :
    σ'.OnlyThread process task := by
  obtain ⟨caller, -, -, -, rfl⟩ := hkills.eq
  exact honly

theorem enters_of_start (hprocess : σ.kernel.processOf task = some process)
    (hstart : σ.mode task = .start) (hcurrent : σ.kernel.current = some task) :
    ∃ τ, Step σ [process] τ := by
  obtain ⟨inner, hinner, rfl⟩ := map_eq_some_iff.mp hprocess
  have hcur : σ.kernel.currentTask = some (task, inner) := by
    simp only [currentTask, hcurrent, hinner, do_some]
  exact ⟨_, .gotoTrapReturn hcur hstart⟩

/-- Let `sys_kill` return zero for a process with one thread, and a signal.  The process
never enters user mode again if and only if its thread has run before, or never gets the
processor; and if it has run, the only thing it does when it comes to the end of
`trap_handler` is to exit with the number of a signal. -/
theorem killed_process_stays_out {memory : UserMemory} {past : List Nat}
    (h : Run (· = boot memory) Step past σ) (hget : σ.tree.get process = some pcb)
    (honly : σ.OnlyThread process task) (hne : signal ≠ 0)
    (hkills : Kills σ pcb.pid signal σ') :
    ((∀ events τ, Run (· = σ') Step events τ → process ∉ events) ↔
      σ.mode task ≠ .start ∨
        ∀ events τ, Run (· = σ') Step events τ → τ.kernel.current ≠ some task) ∧
    (σ.mode task ≠ .start → ∀ events τ inner, Run (· = σ') Step events τ →
      τ.kernel.currentTask = some (task, inner) → inner.resume = .user →
      ∃ errno msg, τ.checkSignalsOfCurrent = some (some (errno, msg)) ∧
        ∀ es τ', Step τ es τ' → τ.exitCurrentAndRunNext errno = some τ') := by
  have hinv := inv_of_run h
  have hpass := hkills.step.pass hinv
  have hinv' := hpass.inv hinv
  obtain ⟨own, hown, hprocess, -⟩ := honly.1
  have hof : σ.kernel.processOf task = some process := hprocess ▸ Kernel.processOf_eq hown
  have hof' : σ'.kernel.processOf task = some process := by
    rw [hpass.processOf_eq (Kernel.lt_length_of_processOf hof), hof]
  refine ⟨⟨fun hnever => ?_, fun hcases => ?_⟩, fun hran events τ inner hrun hcur huser => ?_⟩
  · by_cases hstart : σ.mode task = .start
    · right
      intro events τ hrun hcurrent
      obtain ⟨-, hstart'⟩ := hpass.start hof hstart List.not_mem_nil
      obtain ⟨-, hτ, hfresh⟩ := start_of_run hinv' hof' hstart' hrun (hnever events τ hrun)
      obtain ⟨τ', hstep⟩ := enters_of_start hτ hfresh hcurrent
      exact hnever _ τ' (.step hrun hstep) (List.mem_append_right _ (List.mem_singleton.mpr rfl))
    · exact .inl hstart
  · intro events τ hrun
    rcases hcases with hran | haway
    · exact ((hkills.condemned hinv hget honly hne hran).run hinv' hrun).2.2
    · exact ((hkills.onlyThread honly).run hinv' haway hrun).2.2
  · obtain ⟨hτ, hcondemned, -⟩ := (hkills.condemned hinv hget honly hne hran).run hinv' hrun
    have hsame : inner.process = process := by
      have hτof := processOf_of_run hinv' hof' hrun
      rw [Kernel.processOf_eq (Kernel.currentTask_eq_some hcur).2] at hτof
      exact Option.some.inj hτof
    obtain ⟨errno, msg, hcheck⟩ := hcondemned.exists_signal hτ hcur hsame
    exact ⟨errno, msg, hcheck, fun es τ' hstep => hcondemned.exits hcur hsame huser hcheck hstep⟩

/-- The initial process has forked, and is in user mode again. -/
def forked : System :=
  let σ : System := { boot fun _ => none with kernel := Kernel.boot.runTasks }
  let σ := (σ.setMode 0 .user).setMode 0 .handler
  (σ.sysFork.getD σ).setMode 0 .user

/-- The child has run, too. -/
def taken : System :=
  let σ := forked.setMode 0 .handler
  let σ := { σ with kernel := ((σ.kernel.suspendCurrentAndRunNext .user).getD σ.kernel).runTasks }
  let σ := (σ.setMode 1 .user).setMode 1 .handler
  let σ := { σ with kernel := ((σ.kernel.suspendCurrentAndRunNext .user).getD σ.kernel).runTasks }
  σ.setMode 0 .user

theorem exists_run_forked : ∃ past, Run (· = boot fun _ => none) Step past forked := by
  have h : Run (· = boot fun _ => none) Step [] (boot fun _ => none) := .start rfl
  have h := h.step (.runTasks rfl)
  have h := h.step (.gotoTrapReturn rfl rfl)
  have h := h.step (.trap (.userEnvCall (.thread .fork)) rfl rfl (.userEnvCall rfl))
  exact ⟨_, h.step (.trapReturn rfl rfl rfl rfl)⟩

theorem exists_run_taken : ∃ past, Run (· = boot fun _ => none) Step past taken := by
  obtain ⟨past, h⟩ := exists_run_forked
  have h := h.step (.trap (.userEnvCall (.thread .yield)) rfl rfl (.userEnvCall rfl))
  have h := h.step (.runTasks rfl)
  have h := h.step (.gotoTrapReturn rfl rfl)
  have h := h.step (.trap (.userEnvCall (.thread .yield)) rfl rfl (.userEnvCall rfl))
  have h := h.step (.runTasks rfl)
  exact ⟨_, h.step (.trapReturn rfl rfl rfl rfl)⟩

theorem onlyThread_child {main child : TaskControlBlock} (htasks : σ.kernel.tasks = [main, child])
    (hmain : main.process = 0) (hchild : child.process = 1) (hlive : child.exitCode = none) :
    σ.OnlyThread 1 1 := by
  refine ⟨⟨child, by rw [htasks]; rfl, hchild, hlive⟩, fun t inner ht hprocess _ => ?_⟩
  rw [htasks] at ht
  match t, ht with
  | 0, ht =>
    cases ht
    rw [hmain] at hprocess
    cases hprocess
  | 1, _ => rfl
  | t + 2, ht => cases ht

/-- The initial process kills a child that has run. -/
theorem killed_process_stays_out_taken : ∃ past pcb σ',
    Run (· = boot fun _ => none) Step past taken ∧ taken.tree.get 1 = some pcb ∧
    taken.OnlyThread 1 1 ∧ taken.mode 1 ≠ .start ∧ Kills taken pcb.pid .SIGINT σ' ∧
    ∀ events τ, Run (· = σ') Step events τ → 1 ∉ events := by
  obtain ⟨past, h⟩ := exists_run_taken
  have honly : taken.OnlyThread 1 1 := onlyThread_child rfl rfl rfl rfl
  have hkills : Kills taken 1 .SIGINT _ := ⟨_, _, rfl, rfl, .userEnvCall rfl, rfl⟩
  have hran : taken.mode 1 ≠ .start := by decide
  have hstays := killed_process_stays_out h rfl honly (by decide) hkills
  exact ⟨past, _, _, h, rfl, honly, hran, hkills, hstays.1.mpr (.inl hran)⟩

/-- The initial process has killed its child right after the fork. -/
def killed : System :=
  { forked.setMode 0 .handler with tree := (forked.tree.sysKill 1 .SIGINT).1 }

/-- The initial process kills its child right after the fork, before the child has run:
the child then enters user mode with the signal pending. -/
theorem killed_child_enters_user_mode : ∃ past pcb events τ,
    Run (· = boot fun _ => none) Step past forked ∧ forked.tree.get 1 = some pcb ∧
    forked.OnlyThread 1 1 ∧ Kills forked pcb.pid .SIGINT killed ∧
    Run (· = killed) Step events τ ∧ 1 ∈ events ∧ τ.mode 1 = .user ∧
    τ.checkSignalsOfCurrent = some (some (-2, "Killed, SIGINT=2")) := by
  obtain ⟨past, h⟩ := exists_run_forked
  have honly : forked.OnlyThread 1 1 := onlyThread_child rfl rfl rfl rfl
  have hkills : Kills forked 1 .SIGINT killed := ⟨_, _, rfl, rfl, .userEnvCall rfl, rfl⟩
  have hrun : Run (· = killed) Step [] killed := .start rfl
  have hrun := hrun.step (.trapReturn rfl rfl rfl rfl)
  have hrun := hrun.step (.trap (.userEnvCall (.thread .yield)) rfl rfl (.userEnvCall rfl))
  have hrun := hrun.step (.runTasks rfl)
  have hrun := hrun.step (.gotoTrapReturn rfl rfl)
  exact ⟨past, _, _, _, h, rfl, honly, hkills, hrun, by decide, rfl, rfl⟩

end RCore.Task.System