import Mathlib.Logic.Relation
import RCore.Task.Moves

/-!
# Waiting for a thread

What `sys_waittid` returns, by the thread that the identifier names, and the loop of the user
library that calls it until the thread has exited.
-/

namespace RCore.Task

open Function List Option

namespace Kernel

variable {p : Process} {choice : Choice}

/-- The thread that `tid` names for the caller: the one in its entry, unless it is the caller. -/
def threadNamed (σ : Kernel) (tid : Nat) : Option Nat := do
  let (task, _) ← σ.currentTask
  let (_, process) ← σ.currentProcess
  let named ← slot process.tasks tid
  if named = task then none else some named

def exitCodeOf (σ : Kernel) (task : Nat) : Option Int :=
  (σ.threadOf task).bind (·.exitCode)

/-- `sys_waittid` returns, and its result tells whether the thread does not exist, has not
exited, or has exited with the result as its exit code; its entry is then free. -/
def TellsCases (σ : Kernel) (tid : Nat) : Prop :=
  ∃ σ' result, σ.sysWaittid tid = some (σ', result) ∧
    (result = -1 ↔ σ.threadNamed tid = none) ∧
    (result = -2 ↔ ∃ named, σ.threadNamed tid = some named ∧ σ.exitCodeOf named = none) ∧
    ∀ named exitCode, σ.threadNamed tid = some named → σ.exitCodeOf named = some exitCode →
      result = exitCode ∧ σ'.threadNamed tid = none

variable {σ σ' : Kernel} {task process tid : Nat} {inner : TaskControlBlock}

theorem threadNamed_eq (htask : σ.currentTask = some (task, inner))
    (hp : σ.processes[inner.process]? = some p) :
    σ.threadNamed tid =
      (slot p.tasks tid).bind fun named => if named = task then none else some named := by
  have hprocess : σ.currentProcess = some (inner.process, p) := by
    simp [currentProcess, htask, hp]
  simp only [threadNamed, htask, hprocess, bind_eq_bind, bind_some]

section

variable (h : Reachable σ) (htask : σ.currentTask = some (task, inner))
include h htask

theorem Reachable.slot_caller (hp : σ.processes[inner.process]? = some p) {ownTid : Nat}
    (hown : inner.res = some ownTid) : slot p.tasks tid = some task ↔ tid = ownTid := by
  have hth := threadOf_eq (currentTask_eq_some htask).2
  obtain ⟨t, ht, hslot, -⟩ := h.threadInv.live hth hown
  obtain ⟨_, hp', rfl⟩ := map_eq_some_iff.mp ht
  cases hp'.symm.trans hp
  constructor
  · intro htid
    obtain ⟨-, th, hth', -, hres⟩ := h.threadInv.entry ht htid
    cases hth.symm.trans hth'
    rw [hown] at hres
    rcases hres with hnone | hsome
    · cases hnone
    · exact (Option.some.inj hsome).symm
  · rintro rfl
    exact hslot

theorem Reachable.sysWaittid_none (hp : σ.processes[inner.process]? = some p)
    (htid : tid < p.tasks.length) (hnamed : σ.threadNamed tid = none) :
    σ.sysWaittid tid = some (σ, -1) := by
  obtain ⟨ownTid, hown⟩ := ne_none_iff_exists'.mp (h.res_of_current htask)
  have hcaller : slot p.tasks tid = some task ↔ tid = ownTid := h.slot_caller htask hp hown
  simp only [sysWaittid, htask, hp, hown, do_some]
  by_cases heq : ownTid = tid
  · rw [if_pos heq]
  · rw [if_neg heq]
    rw [threadNamed_eq htask hp] at hnamed
    cases hentry : p.tasks[tid] with
    | none =>
      rw [getElem?_eq_getElem htid, hentry]
      rfl
    | some named =>
      have hslot : slot p.tasks tid = some named := by
        rw [slot, getElem?_eq_getElem htid, hentry]
        rfl
      rw [hslot, bind_some] at hnamed
      by_cases hself : named = task
      · rw [hslot, hself] at hcaller
        exact absurd (hcaller.mp rfl).symm heq
      · rw [if_neg hself] at hnamed
        cases hnamed

theorem Reachable.sysWaittid_some {named : Nat} (hnamed : σ.threadNamed tid = some named) :
    σ.sysWaittid tid = match σ.exitCodeOf named with
      | some exitCode => some (σ.updateProcess inner.process fun process =>
        { process with tasks := process.tasks.set tid none }, exitCode)
      | none => some (σ, -2) := by
  obtain ⟨ownTid, hown⟩ := ne_none_iff_exists'.mp (h.res_of_current htask)
  obtain ⟨p, -, hp, -⟩ := h.exists_process (currentTask_eq_some htask).2 hown
  rw [threadNamed_eq htask hp] at hnamed
  obtain ⟨_, hslot, hself⟩ := bind_eq_some_iff.mp hnamed
  split at hself
  · cases hself
  · next hne =>
    cases hself
    have heq : ownTid ≠ tid := by
      rintro rfl
      have hcaller := (h.slot_caller htask hp hown).mpr rfl
      exact hne (Option.some.inj (hslot.symm.trans hcaller))
    have htable : σ.tableOf inner.process = some ⟨p.tasks, p.taskResAllocator⟩ := by
      rw [tableOf, hp]
      rfl
    obtain ⟨-, th, hth, -⟩ := h.threadInv.entry htable hslot
    obtain ⟨named', hnamed', rfl⟩ := map_eq_some_iff.mp hth
    have hentry : p.tasks[tid]? = some (some _) := join_eq_some_iff.mp hslot
    simp only [sysWaittid, htask, hp, hown, do_some, if_neg heq, hentry, hnamed', exitCodeOf, hth]
    cases named'.exitCode with
    | none => rfl
    | some exitCode => rfl

end

theorem lt_length_of_threadNamed (htask : σ.currentTask = some (task, inner))
    (hp : σ.processes[inner.process]? = some p) {named : Nat}
    (hnamed : σ.threadNamed tid = some named) :
    slot p.tasks tid = some named ∧ named ≠ task ∧ tid < p.tasks.length := by
  rw [threadNamed_eq htask hp] at hnamed
  obtain ⟨_, hslot, hself⟩ := bind_eq_some_iff.mp hnamed
  split at hself
  · cases hself
  · next hne =>
    cases hself
    exact ⟨hslot, hne, lt_length_of_slot hslot⟩

theorem Reachable.sysWaittid_panics (h : Reachable σ) (htask : σ.currentTask = some (task, inner))
    (hp : σ.processes[inner.process]? = some p) (htid : p.tasks.length ≤ tid) :
    σ.sysWaittid tid = none := by
  obtain ⟨ownTid, hown⟩ := ne_none_iff_exists'.mp (h.res_of_current htask)
  have hslot := (h.slot_caller htask hp hown).mpr rfl
  have hlt := lt_length_of_slot hslot
  simp only [sysWaittid, htask, hp, hown, do_some]
  rw [if_neg (by omega), getElem?_eq_none htid]
  rfl

theorem threadNamed_updateProcess_set (htask : σ.currentTask = some (task, inner))
    (hp : σ.processes[inner.process]? = some p) :
    (σ.updateProcess inner.process fun process =>
      { process with tasks := process.tasks.set tid none }).threadNamed tid = none := by
  have hp' : (σ.updateProcess inner.process fun process =>
      { process with tasks := process.tasks.set tid none }).processes[inner.process]? =
      some { p with tasks := p.tasks.set tid none } := by
    simp [updateProcess, hp]
  rw [threadNamed_eq (σ := σ.updateProcess inner.process _) htask hp']
  have hfree : slot (p.tasks.set tid none) tid = none := by
    by_cases htid : tid < p.tasks.length
    · rw [slot_set htid, if_pos rfl]
    · rw [slot, getElem?_eq_none (by rw [length_set]; omega)]
      rfl
  rw [hfree, bind_none]

/-- The results -1 and -2 stand for a thread that does not exist and for one that has not
exited, as long as no thread exits with these codes. -/
theorem Reachable.tellsCases_iff (h : Reachable σ) (htask : σ.currentTask = some (task, inner))
    (hp : σ.processes[inner.process]? = some p) :
    σ.TellsCases tid ↔ tid < p.tasks.length ∧
      ∀ named exitCode, σ.threadNamed tid = some named → σ.exitCodeOf named = some exitCode →
        exitCode ≠ -1 ∧ exitCode ≠ -2 := by
  constructor
  · rintro ⟨σ', result, hcall, hnone, hlive, hexited⟩
    constructor
    · by_contra hge
      rw [h.sysWaittid_panics htask hp (by omega)] at hcall
      cases hcall
    · intro named exitCode hnamed hcode
      obtain ⟨rfl, -⟩ := hexited named exitCode hnamed hcode
      refine ⟨fun heq => ?_, fun heq => ?_⟩
      · rw [hnone.mp heq] at hnamed
        cases hnamed
      · obtain ⟨named', hnamed', hcode'⟩ := hlive.mp heq
        rw [hnamed, Option.some.injEq] at hnamed'
        rw [← hnamed', hcode] at hcode'
        cases hcode'
  · rintro ⟨htid, hcodes⟩
    cases hnamed : σ.threadNamed tid with
    | none =>
      refine ⟨σ, -1, h.sysWaittid_none htask hp htid hnamed, by simp [hnamed], ?_, ?_⟩
      · simp [hnamed]
      · intro named exitCode hsome
        rw [hnamed] at hsome
        cases hsome
    | some named =>
      have hcall := h.sysWaittid_some htask hnamed
      cases hcode : σ.exitCodeOf named with
      | none =>
        rw [hcode] at hcall
        refine ⟨σ, -2, hcall, by simp [hnamed], ?_, ?_⟩
        · simp [hnamed, hcode]
        · intro named' exitCode hsome hcode'
          rw [hnamed, Option.some.injEq] at hsome
          rw [← hsome, hcode] at hcode'
          cases hcode'
      | some exitCode =>
        rw [hcode] at hcall
        obtain ⟨hne₁, hne₂⟩ := hcodes named exitCode hnamed hcode
        refine ⟨_, exitCode, hcall, by simp [hnamed, hne₁], ?_, ?_⟩
        · simp [hnamed, hcode, hne₂]
        · intro named' exitCode' hsome hcode'
          rw [hnamed, Option.some.injEq] at hsome
          rw [← hsome, hcode, Option.some.injEq] at hcode'
          exact ⟨hcode', threadNamed_updateProcess_set htask hp⟩

/-! ## The loop of `waittid` -/

/-- Where a thread is in `waittid`. -/
inductive WaitLoop where
  /-- about to call `sys_waittid` -/
  | call
  /-- about to call `yield_` -/
  | yield
  | done (exitCode : Int)

/-- What `waittid` does with the result of `sys_waittid`. -/
def WaitLoop.next (result : Int) : WaitLoop := if result = -2 then .yield else .done result

/-- What the threads of the process do not do in the meantime: wait for the same thread,
create a thread while the last one to exit has not been waited for, or, if it is `waited`
itself, exit with the code -2. -/
def Undisturbed (process tid waited : Nat) (σ : Kernel) (choice : Choice) : Prop :=
  ∀ task inner, σ.currentTask = some (task, inner) → inner.process = process →
    choice ≠ .syscall (.waittid tid) ∧
    (choice = .syscall .threadCreate → LastFreedWaited σ process) ∧
    (task = waited → choice ≠ .syscall (.exit (-2)))

/-- The steps while `caller` is in `waittid(tid)`: its own, and any steps of others. -/
inductive WaitStep (caller process tid waited : Nat) :
    Kernel × WaitLoop → Kernel × WaitLoop → Prop where
  | call {σ σ' : Kernel} {result : Int} (hcur : σ.current = some caller) (hat : σ.AtResume .user)
      (h : σ.sysWaittid tid = some (σ', result)) :
      WaitStep caller process tid waited (σ, .call) (σ', .next result)
  | yield {σ σ' : Kernel} (hcur : σ.current = some caller) (hat : σ.AtResume .user)
      (h : σ.syscall .yield = some σ') :
      WaitStep caller process tid waited (σ, .yield) (σ', .call)
  | preempt {σ σ' : Kernel} {nowMs : Nat} {place : WaitLoop} (hcur : σ.current = some caller)
      (h : Chosen σ (.timer nowMs) σ') :
      WaitStep caller process tid waited (σ, place) (σ', place)
  | other {σ σ' : Kernel} {choice : Choice} {place : WaitLoop} (hcur : σ.current ≠ some caller)
      (h : Chosen σ choice σ') (hquiet : Undisturbed process tid waited σ choice) :
      WaitStep caller process tid waited (σ, place) (σ', place)

theorem Chosen.threadOf_kept (h : Chosen σ choice σ') {t : Nat} {th : Thread}
    (hth : σ.threadOf t = some th)
    (hexit : ∀ exitCode, choice = .syscall (.exit exitCode) → σ.current ≠ some t) :
    σ'.threadOf t = some th := by
  have hold : t ≠ σ.tasks.length := fun heq => by simp [heq, threadOf_length] at hth
  cases hmanages : choice.managesThreads with
  | false => rwa [(h.observed.frame hmanages).thread]
  | true =>
    cases h with
    | runTasks | timer | lock | pollAgain | pollDone => cases hmanages
    | @syscall _ call hat h =>
      cases call with
      | fork => rwa [(sysFork_eq h).1, update_of_ne hold]
      | threadCreate =>
        obtain ⟨⟨_, _⟩, hcall, rfl⟩ := map_eq_some_iff.mp h
        obtain ⟨_, _, _, _, -, -, -, -, hthread, -⟩ := sysThreadCreate_eq hcall
        rwa [hthread, update_of_ne hold]
      | exit exitCode =>
        obtain ⟨task, inner, _, _, _, htask, -, -, -, hthread, -⟩ :=
          exitCurrentAndRunNext_eq h
        have hne : t ≠ task := by
          rintro rfl
          exact hexit exitCode rfl (currentTask_eq_some htask).1
        rwa [hthread, update_of_ne hne]
      | waittid tid =>
        obtain ⟨⟨_, _⟩, hcall, rfl⟩ := map_eq_some_iff.mp h
        obtain ⟨_, _, _, -, -, -, hthread, -⟩ := sysWaittid_eq hcall
        rwa [hthread]
      | _ => cases hmanages

theorem create_mem_threadEvents (h : .create process tid ∈ σ.threadEvents choice σ') :
    ∃ task inner σ₁, choice = .syscall .threadCreate ∧ σ.currentTask = some (task, inner) ∧
      inner.process = process ∧ σ.sysThreadCreate = some (σ₁, tid) := by
  unfold threadEvents at h
  split at h
  · next task inner htask =>
    obtain ⟨⟨σ₁, tid'⟩, hcall, heq⟩ := mem_map.mp h
    obtain ⟨rfl, rfl⟩ := ThreadEvent.create.inj heq
    exact ⟨task, inner, σ₁, rfl, htask, rfl, by simpa using hcall⟩
  all_goals simp at h

theorem waittid_mem_threadEvents {result : Int}
    (h : .waittid process tid result ∈ σ.threadEvents choice σ') :
    ∃ task inner, choice = .syscall (.waittid tid) ∧ σ.currentTask = some (task, inner) ∧
      inner.process = process := by
  unfold threadEvents at h
  split at h
  · simp at h
  · simp at h
  · next tid' task inner htask =>
    obtain ⟨_, -, heq⟩ := mem_map.mp h
    obtain ⟨rfl, rfl, -⟩ := ThreadEvent.waittid.inj heq
    exact ⟨task, inner, rfl, htask, rfl⟩
  · simp at h

theorem ThreadInv.alloc_ne {thread : Nat → Option Thread} {table : Nat → Option ThreadTable}
    {t : ThreadTable} (hinv : ThreadInv thread table) (ht : table process = some t)
    (hlast : ∀ th, t.allocator.recycled.head? = some tid → thread task = some th →
      th.exitCode = none) (hslot : slot t.tasks tid = some task) : t.allocator.alloc.1 ≠ tid := by
  rintro rfl
  obtain ⟨hlt, th, hth, rfl, hres⟩ := hinv.entry ht hslot
  rcases (alloc_cases (hinv.recycled ht).1 (hinv.recycled ht).2).1 with hhead | heq
  · have hlive := (hinv.res_iff hth).mpr (hlast th hhead hth)
    rcases hres with hnone | hsome
    · rw [hnone] at hlive
      cases hlive
    · exact hinv.res_ne_alloc ht hth rfl hsome
  · omega

/-- While `caller` waits, the thread keeps its entry. -/
structure Awaits (caller process tid waited : Nat) (σ : Kernel) : Prop where
  reachable : Reachable σ
  distinct : waited ≠ caller
  own : ∃ th, σ.threadOf caller = some th ∧ th.process = process
  entry : ∃ t, σ.tableOf process = some t ∧ slot t.tasks tid = some waited
  code : σ.exitCodeOf waited ≠ some (-2)

namespace Awaits

variable {caller waited : Nat}

theorem threadOf_waited (h : Awaits caller process tid waited σ) :
    ∃ th, σ.threadOf waited = some th ∧ th.process = process := by
  obtain ⟨t, ht, hslot⟩ := h.entry
  obtain ⟨-, th, hth, hprocess, -⟩ := h.reachable.threadInv.entry ht hslot
  exact ⟨th, hth, hprocess⟩

section

variable (h : Awaits caller process tid waited σ) (hchosen : Chosen σ choice σ')
  (hquiet : Undisturbed process tid waited σ choice)
include h hchosen hquiet

theorem slot_kept : ∃ t, σ'.tableOf process = some t ∧ slot t.tasks tid = some waited := by
  obtain ⟨t, ht, hslot⟩ := h.entry
  refine hchosen.threadEffect.slot_kept ht hslot (fun hmem => ?_) (fun result hmem => ?_)
  · obtain ⟨task, inner, σ₁, rfl, htask, rfl, hcall⟩ := create_mem_threadEvents hmem
    obtain ⟨_, _, t', _, htask', ht', halloc, -⟩ := sysThreadCreate_eq hcall
    cases htask.symm.trans htask'
    cases ht.symm.trans ht'
    have hlast := (hquiet task inner htask rfl).2.1 rfl
    exact h.reachable.threadInv.alloc_ne ht
      (fun th hhead hth => hlast t tid waited th ht hhead hslot hth) hslot halloc.symm
  · obtain ⟨task, inner, rfl, htask, hprocess⟩ := waittid_mem_threadEvents hmem
    exact (hquiet task inner htask hprocess).1 rfl

theorem code_kept : σ'.exitCodeOf waited ≠ some (-2) := by
  obtain ⟨th, hth, hprocess⟩ := h.threadOf_waited
  by_cases hexit : ∃ exitCode, choice = .syscall (.exit exitCode) ∧ σ.current = some waited
  · obtain ⟨exitCode, rfl, hcur⟩ := hexit
    cases hchosen with
    | syscall hat hcall =>
      obtain ⟨task, inner, _, _, _, htask, -, -, -, hthread, -⟩ := exitCurrentAndRunNext_eq hcall
      obtain ⟨hcur', hinner⟩ := currentTask_eq_some htask
      cases hcur.symm.trans hcur'
      have hown : inner.process = process := by
        rw [threadOf_eq hinner, Option.some.injEq] at hth
        rw [← hprocess, ← hth]
      have hne := (hquiet _ inner htask hown).2.2 rfl
      rw [exitCodeOf, hthread, update_self, bind_some]
      rintro heq
      rw [Option.some.inj heq] at hne
      exact hne rfl
  · have hkept := hchosen.threadOf_kept hth fun exitCode hchoice hcur =>
      hexit ⟨exitCode, hchoice, hcur⟩
    have hcode := h.code
    rw [exitCodeOf, hth] at hcode
    rw [exitCodeOf, hkept]
    exact hcode

theorem step (hcaller : ∀ exitCode, choice = .syscall (.exit exitCode) → σ.current ≠ some caller) :
    Awaits caller process tid waited σ' := by
  obtain ⟨th, hth, hprocess⟩ := h.own
  exact
    { reachable := .step h.reachable hchosen.step
      distinct := h.distinct
      own := ⟨th, hchosen.threadOf_kept hth hcaller, hprocess⟩
      entry := h.slot_kept hchosen hquiet
      code := h.code_kept hchosen hquiet }

end

theorem sysWaittid_eq (h : Awaits caller process tid waited σ) (hcur : σ.current = some caller) :
    (σ.exitCodeOf waited = none ∧ σ.sysWaittid tid = some (σ, -2)) ∨
      ∃ σ' exitCode, σ.exitCodeOf waited = some exitCode ∧ exitCode ≠ -2 ∧
        σ.sysWaittid tid = some (σ', exitCode) ∧ σ'.exitCodeOf waited = some exitCode := by
  obtain ⟨th, hth, rfl⟩ := h.own
  obtain ⟨inner, hinner, rfl⟩ := map_eq_some_iff.mp hth
  have htask : σ.currentTask = some (caller, inner) := by
    simp [currentTask, hcur, hinner]
  obtain ⟨t, ht, hslot⟩ := h.entry
  obtain ⟨p, hp, rfl⟩ := map_eq_some_iff.mp ht
  have hnamed : σ.threadNamed tid = some waited := by
    rw [threadNamed_eq htask hp, hslot, bind_some, if_neg h.distinct]
  have hcall := h.reachable.sysWaittid_some htask hnamed
  have hcode := h.code
  cases hexited : σ.exitCodeOf waited with
  | none =>
    rw [hexited] at hcall
    exact .inl ⟨rfl, hcall⟩
  | some exitCode =>
    rw [hexited] at hcall hcode
    refine .inr ⟨_, exitCode, rfl, fun heq => hcode (heq ▸ rfl), hcall, hexited⟩

end Awaits

/-- Along the loop: the caller waits, or `waittid` has returned the exit code. -/
def LoopInv (caller process tid waited : Nat) : Kernel × WaitLoop → Prop
  | (σ, .done exitCode) => Reachable σ ∧ σ.exitCodeOf waited = some exitCode
  | (σ, _) => Awaits caller process tid waited σ

theorem exitCodeOf_kept (h : Reachable σ) (hchosen : Chosen σ choice σ') {exitCode : Int}
    (hcode : σ.exitCodeOf task = some exitCode) : σ'.exitCodeOf task = some exitCode := by
  obtain ⟨th, hth, hcode⟩ := bind_eq_some_iff.mp hcode
  rw [exitCodeOf, hchosen.threadEffect.threadOf_exited h.threadInv hth hcode, bind_some, hcode]

theorem LoopInv.other {caller waited : Nat} {place : WaitLoop}
    (h : LoopInv caller process tid waited (σ, place)) (hchosen : Chosen σ choice σ')
    (hquiet : Undisturbed process tid waited σ choice)
    (hcaller : ∀ exitCode, choice = .syscall (.exit exitCode) → σ.current ≠ some caller) :
    LoopInv caller process tid waited (σ', place) := by
  cases place with
  | call => exact Awaits.step h hchosen hquiet hcaller
  | yield => exact Awaits.step h hchosen hquiet hcaller
  | done exitCode => exact ⟨.step h.1 hchosen.step, exitCodeOf_kept h.1 hchosen h.2⟩

theorem WaitStep.loopInv {caller waited : Nat} {s s' : Kernel × WaitLoop}
    (hstep : WaitStep caller process tid waited s s')
    (h : LoopInv caller process tid waited s) : LoopInv caller process tid waited s' := by
  cases hstep with
  | call hcur hat hcall =>
    rcases Awaits.sysWaittid_eq h hcur with ⟨-, hlive⟩ | ⟨σ', exitCode, hcode, hne, hexited, hkept⟩
    · obtain ⟨rfl, rfl⟩ := Prod.mk.inj (Option.some.inj (hlive.symm.trans hcall))
      exact h
    · obtain ⟨rfl, rfl⟩ := Prod.mk.inj (Option.some.inj (hexited.symm.trans hcall))
      rw [WaitLoop.next, if_neg hne]
      have hchosen : Chosen _ (.syscall (.waittid tid)) σ' :=
        .syscall hat (by rw [syscall, hcall]; rfl)
      exact ⟨.step (Awaits.reachable h) hchosen.step, hkept⟩
  | yield hcur hat hcall =>
    have hchosen : Chosen _ (.syscall .yield) _ := .syscall hat hcall
    exact Awaits.step h hchosen (fun _ _ _ _ => by simp) (by simp)
  | preempt hcur hchosen =>
    exact LoopInv.other h hchosen (fun _ _ _ _ => by simp) (by simp)
  | other hcur hchosen hquiet => exact LoopInv.other h hchosen hquiet fun _ _ => hcur

theorem loopInv_of_run {caller waited : Nat} {s s' : Kernel × WaitLoop}
    (hrun : Relation.ReflTransGen (WaitStep caller process tid waited) s s')
    (h : LoopInv caller process tid waited s) : LoopInv caller process tid waited s' := by
  induction hrun with
  | refl => exact h
  | tail _ hstep ih => exact hstep.loopInv ih

/-- `waittid` returns the exit code of the thread, and does so at its first call of `sys_waittid`
after the exit. -/
def Reports (caller tid waited : Nat) (σ : Kernel) : WaitLoop → Prop
  | .call => σ.current = some caller → ∃ σ' result, σ.sysWaittid tid = some (σ', result) ∧
      ∀ exitCode, σ.exitCodeOf waited = some exitCode → WaitLoop.next result = .done exitCode
  | .yield => True
  | .done exitCode => σ.exitCodeOf waited = some exitCode

theorem LoopInv.reports {caller waited : Nat} {place : WaitLoop}
    (h : LoopInv caller process tid waited (σ, place)) : Reports caller tid waited σ place := by
  cases place with
  | yield => trivial
  | done exitCode => exact h.2
  | call =>
    intro hcur
    rcases Awaits.sysWaittid_eq h hcur with ⟨hlive, hcall⟩ | ⟨σ', exitCode, hcode, hne, hcall, -⟩
    · refine ⟨σ, -2, hcall, fun exitCode hcode => ?_⟩
      rw [hlive] at hcode
      cases hcode
    · refine ⟨σ', exitCode, hcall, fun exitCode' hcode' => ?_⟩
      cases hcode.symm.trans hcode'
      rw [WaitLoop.next, if_neg hne]

/-- **Waiting for threads.**  In every reachable state `sys_waittid(tid)` returns and tells its
cases apart, if and only if `tid` lies within the table of the process and the thread it names
has not exited with -1 or -2.  And `waittid` returns the exit code of the thread that it waits
for, if that is not -2 and the other threads leave the thread its entry. -/
theorem waittid_tells_cases_iff (h : Reachable σ) (htask : σ.currentTask = some (task, inner))
    {p : Process} (hp : σ.processes[inner.process]? = some p) (tid : Nat) :
    (σ.TellsCases tid ↔ tid < p.tasks.length ∧
      ∀ named exitCode, σ.threadNamed tid = some named → σ.exitCodeOf named = some exitCode →
        exitCode ≠ -1 ∧ exitCode ≠ -2) ∧
    ∀ waited, σ.threadNamed tid = some waited → σ.exitCodeOf waited ≠ some (-2) →
      ∀ σ' place, Relation.ReflTransGen (WaitStep task inner.process tid waited) (σ, .call)
        (σ', place) → Reports task tid waited σ' place := by
  refine ⟨h.tellsCases_iff htask hp, ?_⟩
  intro waited hnamed hcode σ' place hrun
  obtain ⟨hslot, hne, -⟩ := lt_length_of_threadNamed htask hp hnamed
  have hstart : LoopInv task inner.process tid waited (σ, .call) :=
    { reachable := h
      distinct := hne
      own := ⟨_, threadOf_eq (currentTask_eq_some htask).2, rfl⟩
      entry := ⟨⟨p.tasks, p.taskResAllocator⟩, by rw [tableOf, hp]; rfl, hslot⟩
      code := hcode }
  exact LoopInv.reports (loopInv_of_run hrun hstart)

/-- A run in which a second thread exits with the given code, up to the point where the main
thread has the processor again. -/
def exitRun (exitCode : Int) : List Choice :=
  [.runTasks, .syscall .threadCreate, .syscall .yield, .runTasks, .syscall (.exit exitCode),
    .runTasks]

/-- A thread exits with code 7, and the main thread waits for it. -/
theorem waittid_tells_cases_iff_seven : ∃ σ, Reachable σ ∧ σ.TellsCases 1 ∧
    ∀ σ' place, Relation.ReflTransGen (WaitStep 0 0 1 1) (σ, .call) (σ', place) →
      Reports 0 1 1 σ' place := by
  obtain ⟨σ, hperform, htask, hp, hnamed, hcode⟩ : ∃ σ,
      boot.performAll threadEvents (exitRun 7) = some ([.create 0 1, .exit 0 1 7], σ) ∧
        σ.currentTask = some (0, { TaskControlBlock.new 0 0 with taskStatus := .running }) ∧
        (∃ p, σ.processes[0]? = some p ∧ 1 < p.tasks.length) ∧ σ.threadNamed 1 = some 1 ∧
        σ.exitCodeOf 1 = some 7 :=
    ⟨_, rfl, rfl, ⟨_, rfl, by decide⟩, rfl, rfl⟩
  obtain ⟨p, hp, hlen⟩ := hp
  have hreachable : Reachable σ := reachable_of_run (run_of_performAll (.start rfl) _ hperform)
  obtain ⟨hiff, hloop⟩ := waittid_tells_cases_iff hreachable htask hp 1
  refine ⟨σ, hreachable, hiff.mpr ⟨hlen, ?_⟩, hloop 1 hnamed (by rw [hcode]; decide)⟩
  intro named exitCode hnamed' hcode'
  cases hnamed.symm.trans hnamed'
  cases hcode.symm.trans hcode'
  decide

/-- An identifier that was never handed out is out of range; a thread that exits with -1 looks
like one that does not exist; and if it exits with -2, `sys_waittid` frees its entry, and
`waittid` goes on to return -1. -/
theorem waittid_misreports :
    (∃ σ, Reachable σ ∧ σ.current = some 0 ∧ σ.sysWaittid 1 = none) ∧
    (∃ σ σ', Reachable σ ∧ σ.current = some 0 ∧ σ.threadNamed 1 = some 1 ∧
      σ.exitCodeOf 1 = some (-1) ∧ σ.sysWaittid 1 = some (σ', -1) ∧ ¬σ.TellsCases 1) ∧
    ∃ σ σ', Reachable σ ∧ σ.current = some 0 ∧ σ.threadNamed 1 = some 1 ∧
      σ.exitCodeOf 1 = some (-2) ∧
      Relation.ReflTransGen (WaitStep 0 0 1 1) (σ, .call) (σ', .done (-1)) := by
  refine ⟨?_, ?_, ?_⟩
  · obtain ⟨σ, hperform, hcur, hcall⟩ : ∃ σ,
        boot.performAll threadEvents [.runTasks] = some ([], σ) ∧ σ.current = some 0 ∧
          σ.sysWaittid 1 = none := ⟨_, rfl, rfl, rfl⟩
    exact ⟨σ, reachable_of_run (run_of_performAll (.start rfl) _ hperform), hcur, hcall⟩
  · obtain ⟨σ, σ', hperform, hcur, hnamed, hcode, hcall⟩ : ∃ σ σ',
        boot.performAll threadEvents (exitRun (-1)) = some ([.create 0 1, .exit 0 1 (-1)], σ) ∧
          σ.current = some 0 ∧ σ.threadNamed 1 = some 1 ∧ σ.exitCodeOf 1 = some (-1) ∧
          σ.sysWaittid 1 = some (σ', -1) := ⟨_, _, rfl, rfl, rfl, rfl, rfl⟩
    refine ⟨σ, σ', reachable_of_run (run_of_performAll (.start rfl) _ hperform), hcur, hnamed, hcode,
      hcall, ?_⟩
    rintro ⟨_, result, hcall', hnone, -⟩
    cases hcall.symm.trans hcall'
    rw [hnone.mp rfl] at hnamed
    cases hnamed
  · obtain ⟨σ, σ₁, σ₂, σ₃, σ₄, hperform, hcur, hnamed, hcode, hat, hcall, hat₁, hcur₁, hyield, hrun,
        hat₃, hcur₃, hcall₃⟩ : ∃ σ σ₁ σ₂ σ₃ σ₄,
        boot.performAll threadEvents (exitRun (-2)) = some ([.create 0 1, .exit 0 1 (-2)], σ) ∧
          σ.current = some 0 ∧ σ.threadNamed 1 = some 1 ∧ σ.exitCodeOf 1 = some (-2) ∧
          σ.AtResume .user ∧ σ.sysWaittid 1 = some (σ₁, -2) ∧ σ₁.AtResume .user ∧
          σ₁.current = some 0 ∧ σ₁.syscall .yield = some σ₂ ∧
          (σ₂.current = none ∧ σ₂.runTasks = σ₃) ∧ σ₃.AtResume .user ∧ σ₃.current = some 0 ∧
          σ₃.sysWaittid 1 = some (σ₄, -1) :=
      ⟨_, _, _, _, _, rfl, rfl, rfl, rfl, ⟨_, _, rfl, rfl⟩, rfl, ⟨_, _, rfl, rfl⟩, rfl, rfl,
        ⟨rfl, rfl⟩, ⟨_, _, rfl, rfl⟩, rfl, rfl⟩
    refine ⟨σ, σ₄, reachable_of_run (run_of_performAll (.start rfl) _ hperform), hcur, hnamed, hcode,
      ?_⟩
    have hfirst : WaitStep 0 0 1 1 (σ, .call) (σ₁, .yield) := .call hcur hat hcall
    have hswitch : WaitStep 0 0 1 1 (σ₂, .call) (σ₃, .call) := by
      obtain ⟨hidle, rfl⟩ := hrun
      refine .other (by simp [hidle]) (.runTasks hidle) fun task inner htask => ?_
      simp [currentTask, hidle] at htask
    have hlast : WaitStep 0 0 1 1 (σ₃, .call) (σ₄, .done (-1)) := .call hcur₃ hat₃ hcall₃
    exact (((Relation.ReflTransGen.single hfirst).tail (.yield hcur₁ hat₁ hyield)).tail
      hswitch).tail hlast

end Kernel

end RCore.Task
