import Mathlib.Data.List.Infix
import Mathlib.Data.List.Perm.Subperm
import RCore.Task.Waittid

/-!
# The number of threads

`thread_count` is the length of the table of threads, and the table does not shrink when a
thread has been waited for.  It is the largest number of threads that have been alive at once.
-/

namespace RCore.Task

open RCore.Lib.History List Option

/-- `thread_count`. -/
def Process.threadCount (self : Process) : Nat := self.tasks.length

/-- What happens to the threads of one process after its main thread has been created. -/
inductive LifeEvent where
  | create
  | exit
  /-- `sys_waittid` has found the thread exited and freed its entry -/
  | reap
  deriving DecidableEq, Repr

/-- Threads that have been created and have not exited. -/
def alive (history : List LifeEvent) : Int :=
  1 + history.count .create - history.count .exit

/-- Threads that have been created and not yet reaped. -/
def unreaped (history : List LifeEvent) : Int :=
  1 + history.count .create - history.count .reap

/-- The largest number of threads that have been alive at once. -/
def mostAlive (history : List LifeEvent) : Int :=
  (history.inits.map alive).foldl max 0

theorem mostAlive_concat (history : List LifeEvent) (event : LifeEvent) :
    mostAlive (history ++ [event]) = max (mostAlive history) (alive (history ++ [event])) := by
  simp [mostAlive, inits_append]

theorem alive_create (history : List LifeEvent) :
    alive (history ++ [.create]) = alive history + 1 := by
  simp [alive]
  omega

theorem alive_exit (history : List LifeEvent) :
    alive (history ++ [.exit]) = alive history - 1 := by
  simp [alive]
  omega

theorem alive_reap (history : List LifeEvent) : alive (history ++ [.reap]) = alive history := by
  simp [alive]

/-! ## The table of one process -/

namespace Kernel

/-- The table of threads of a process, seen alone. -/
inductive ThreadTable.Does : ThreadTable → List LifeEvent → ThreadTable → Prop where
  /-- the creator is alive, and the table is extended up to the new identifier -/
  | create {t : ThreadTable} {tasks : List (Option Nat)}
      (hlive : t.allocator.recycled.length < t.allocator.current)
      (hlen : tasks.length = max t.tasks.length (t.allocator.alloc.1 + 1)) :
      Does t [.create] ⟨tasks, t.allocator.alloc.2⟩
  | exit {t : ThreadTable} {tid : Nat} {allocator : RecycleAllocator}
      (hdealloc : t.allocator.dealloc tid = some allocator) : Does t [.exit] ⟨t.tasks, allocator⟩
  | reap {t : ThreadTable} (tid : Nat) : Does t [.reap] ⟨t.tasks.set tid none, t.allocator⟩

/-- The table of a process with its main thread. -/
def ThreadTable.IsNew (t : ThreadTable) : Prop :=
  t.tasks.length = 1 ∧ t.allocator = ⟨1, []⟩

/-- The table is as long as identifiers have been needed at once. -/
structure Counted (t : ThreadTable) (history : List LifeEvent) : Prop where
  length : t.tasks.length = t.allocator.current
  recycled : ∀ id ∈ t.allocator.recycled, id < t.allocator.current
  alive : alive history + t.allocator.recycled.length = t.allocator.current
  most : mostAlive history = t.allocator.current
  pos : 0 < t.allocator.current
  single : t.allocator.current = 1 ↔ .create ∉ history

theorem ThreadTable.IsNew.counted {t : ThreadTable} (h : t.IsNew) : Counted t [] := by
  obtain ⟨hlen, hallocator⟩ := h
  exact
    { length := by rw [hlen, hallocator]
      recycled := by simp [hallocator]
      alive := by simp [hallocator, Task.alive]
      most := by rw [hallocator]; rfl
      pos := by simp [hallocator]
      single := by simp [hallocator] }

variable {t t' : ThreadTable} {history es : List LifeEvent}

theorem Counted.create {tasks : List (Option Nat)} (h : Counted t history)
    (hlive : t.allocator.recycled.length < t.allocator.current)
    (hlen : tasks.length = max t.tasks.length (t.allocator.alloc.1 + 1)) :
    Counted ⟨tasks, t.allocator.alloc.2⟩ (history ++ [.create]) := by
  obtain ⟨hlength, hrecycled, halive, hmost, hpos, -⟩ := h
  have hnext := alive_create history
  have hcreated : LifeEvent.create ∈ history ++ [.create] := by simp
  rw [RecycleAllocator.alloc] at hlen ⊢
  cases hfree : t.allocator.recycled with
  | nil =>
    rw [hfree] at hlen halive
    simp only [length_nil] at halive
    refine ⟨?_, ?_, ?_, ?_, ?_, ?_⟩
    · simp only at hlen ⊢
      omega
    · simp
    · simp only [hnext, length_nil]
      omega
    · simp only [mostAlive_concat, hmost, hnext]
      omega
    · simp only
      omega
    · simp only [hcreated, not_true_eq_false, iff_false]
      omega
  | cons id rest =>
    have hid := hrecycled id (by simp [hfree])
    rw [hfree] at hlen halive hlive
    simp only [length_cons] at halive hlive
    refine ⟨?_, ?_, ?_, ?_, ?_, ?_⟩
    · simp only at hlen ⊢
      omega
    · exact fun other hother => hrecycled other (by simp [hfree, hother])
    · simp only [hnext]
      omega
    · simp only [mostAlive_concat, hmost, hnext]
      omega
    · exact hpos
    · simp only [hcreated, not_true_eq_false, iff_false]
      omega

theorem Counted.exit {tid : Nat} {allocator : RecycleAllocator} (h : Counted t history)
    (hdealloc : t.allocator.dealloc tid = some allocator) :
    Counted ⟨t.tasks, allocator⟩ (history ++ [.exit]) := by
  obtain ⟨hlength, hrecycled, halive, hmost, hpos, hsingle⟩ := h
  rw [RecycleAllocator.dealloc, ite_none_right_eq_some, Option.some.injEq] at hdealloc
  obtain ⟨⟨htid, -⟩, rfl⟩ := hdealloc
  have hnext := alive_exit history
  refine ⟨hlength, ?_, ?_, ?_, hpos, ?_⟩
  · intro id hmem
    rcases mem_cons.mp hmem with rfl | hmem
    · exact htid
    · exact hrecycled id hmem
  · simp only [hnext, length_cons]
    omega
  · simp only [mostAlive_concat, hmost, hnext]
    omega
  · simpa using hsingle

theorem Counted.reap (h : Counted t history) (tid : Nat) :
    Counted ⟨t.tasks.set tid none, t.allocator⟩ (history ++ [.reap]) := by
  have hnext := alive_reap history
  have hbound : Task.alive history ≤ t.allocator.current := by
    have := h.alive
    omega
  refine ⟨?_, h.recycled, ?_, ?_, h.pos, ?_⟩
  · rw [length_set]
    exact h.length
  · rw [hnext]
    exact h.alive
  · rw [mostAlive_concat, h.most, hnext]
    exact Int.max_eq_left hbound
  · simpa using h.single

theorem ThreadTable.Does.counted (hdoes : t.Does es t') (h : Counted t history) :
    Counted t' (history ++ es) := by
  cases hdoes with
  | create hlive hlen => exact h.create hlive hlen
  | exit hdealloc => exact h.exit hdealloc
  | reap tid => exact h.reap tid

theorem counted_of_run (h : Run ThreadTable.IsNew ThreadTable.Does history t) :
    Counted t history := by
  induction h with
  | start h => exact h.counted
  | step _ hdoes ih => exact hdoes.counted ih

/-! ## The tables of the kernel -/

/-- The events of a step, with the process that they belong to. -/
def lifeEvents (σ : Kernel) (choice : Choice) (_ : Kernel) : List (Nat × LifeEvent) :=
  match choice, σ.currentTask with
  | .syscall .threadCreate, some (_, inner) => [(inner.process, .create)]
  | .syscall (.exit _), some (_, inner) => [(inner.process, .exit)]
  | .syscall (.waittid tid), some (_, inner) =>
      if ((σ.threadNamed tid).bind σ.exitCodeOf).isSome then [(inner.process, .reap)] else []
  | _, _ => []

/-- The events of one process. -/
def lifeOf (process : Nat) (history : List (Nat × LifeEvent)) : List LifeEvent :=
  history.filterMap fun event => if event.1 = process then some event.2 else none

variable {σ σ' : Kernel} {task process tid : Nat} {inner : TaskControlBlock}

theorem lifeOf_singleton (process : Nat) (event : LifeEvent) (i : Nat) :
    lifeOf i [(process, event)] = if process = i then [event] else [] := by
  by_cases h : process = i <;> simp [lifeOf, h]

theorem lifeEvents_of_not_manages {choice : Choice} (h : choice.managesThreads = false) :
    σ.lifeEvents choice σ' = [] := by
  unfold lifeEvents
  split <;> first | rfl | simp [Choice.managesThreads, Syscall.managesThreads] at h

theorem ThreadInv.recycled_lt {thread : Nat → Option Thread} {table : Nat → Option ThreadTable}
    (hinv : ThreadInv thread table) {th : Thread} (hth : thread task = some th)
    (hres : th.res = some tid) (ht : table th.process = some t) :
    t.allocator.recycled.length < t.allocator.current := by
  obtain ⟨t', ht', hslot, hnot⟩ := hinv.live hth hres
  cases ht.symm.trans ht'
  obtain ⟨hnodup, hlt⟩ := hinv.recycled ht
  have htid := (hinv.entry ht hslot).1
  have hsub : tid :: t.allocator.recycled ⊆ List.range t.allocator.current := by
    intro id hid
    rcases mem_cons.mp hid with rfl | hid
    · exact mem_range.mpr htid
    · exact mem_range.mpr (hlt id hid)
  have hle := (subperm_of_subset (nodup_cons.mpr ⟨hnot, hnodup⟩) hsub).length_le
  rwa [length_cons, length_range] at hle

theorem sysThreadCreate_does (h : Reachable σ) (hcall : σ.sysThreadCreate = some (σ', tid)) :
    ∃ task inner t new, σ.currentTask = some (task, inner) ∧ σ.tableOf inner.process = some t ∧
      t.Does [.create] new ∧ σ'.tableOf = Function.update σ.tableOf inner.process (some new) := by
  simp only [sysThreadCreate, do_eq_some_iff, Option.some.injEq, Prod.mk.injEq] at hcall
  obtain ⟨⟨task, inner⟩, htask, p, hp, ownTid, hown, rfl, rfl⟩ := hcall
  have ht : σ.tableOf inner.process = some ⟨p.tasks, p.taskResAllocator⟩ := by
    rw [tableOf, hp]
    rfl
  have hth := threadOf_eq (currentTask_eq_some htask).2
  refine ⟨task, inner, _, _, htask, ht, .create (h.threadInv.recycled_lt hth hown ht) ?_,
    tableOf_update hp rfl rfl⟩
  simp only [length_set, length_append, length_replicate]
  omega

/-- A call of `sys_waittid` frees an entry exactly if the thread has exited. -/
theorem sysWaittid_projects (h : Reachable σ) (htask : σ.currentTask = some (task, inner))
    {result : Int} (hwait : σ.sysWaittid tid = some (σ', result)) (i : Nat) :
    Projects ThreadTable.IsNew ThreadTable.Does (σ.tableOf i)
      (lifeOf i (σ.lifeEvents (.syscall (.waittid tid)) σ')) (σ'.tableOf i) := by
  obtain ⟨ownTid, hown⟩ := ne_none_iff_exists'.mp (h.res_of_current htask)
  obtain ⟨p, -, hp, -⟩ := h.exists_process (currentTask_eq_some htask).2 hown
  have ht : σ.tableOf inner.process = some ⟨p.tasks, p.taskResAllocator⟩ := by
    rw [tableOf, hp]
    rfl
  simp only [lifeEvents, htask]
  cases hnamed : σ.threadNamed tid with
  | none =>
    have htid : tid < p.tasks.length := by
      by_contra hge
      rw [h.sysWaittid_panics htask hp (by omega)] at hwait
      cases hwait
    rw [h.sysWaittid_none htask hp htid hnamed] at hwait
    cases hwait
    exact projects_refl _
  | some named =>
    rw [h.sysWaittid_some htask hnamed] at hwait
    rw [bind_some]
    cases hcode : σ.exitCodeOf named with
    | none =>
      rw [hcode] at hwait
      cases hwait
      exact projects_refl _
    | some exitCode =>
      rw [hcode] at hwait
      cases hwait
      have htable : (σ.updateProcess inner.process fun process =>
          { process with tasks := process.tasks.set tid none }).tableOf =
          Function.update σ.tableOf inner.process
            (some ⟨p.tasks.set tid none, p.taskResAllocator⟩) := tableOf_update hp rfl rfl
      rw [isSome_some, if_pos rfl, lifeOf_singleton, htable]
      exact projects_update ht (.reap tid) i

/-- Every table goes through its own transitions. -/
theorem Chosen.table_projects (h : Reachable σ) {choice : Choice} (hchosen : Chosen σ choice σ')
    (i : Nat) : Projects ThreadTable.IsNew ThreadTable.Does (σ.tableOf i)
      (lifeOf i (σ.lifeEvents choice σ')) (σ'.tableOf i) := by
  cases hmanages : choice.managesThreads with
  | false =>
    rw [lifeEvents_of_not_manages hmanages, (hchosen.observed.frame hmanages).table]
    exact projects_refl _
  | true =>
    cases hchosen with
    | runTasks | timer | lock | pollAgain | pollDone => cases hmanages
    | @syscall _ call hat hcall =>
      cases call with
      | fork =>
        have hevents : σ.lifeEvents (.syscall .fork) σ' = [] := by
          unfold lifeEvents
          split <;> first | rfl | simp_all
        rw [hevents, (sysFork_eq hcall).2]
        exact projects_create σ.tableOf_length ⟨rfl, rfl⟩ i
      | threadCreate =>
        obtain ⟨⟨_, tid⟩, hcreate, rfl⟩ := map_eq_some_iff.mp hcall
        obtain ⟨task, inner, t, new, htask, ht, hdoes, htable⟩ :=
          sysThreadCreate_does h hcreate
        simp only [lifeEvents, htask, lifeOf_singleton, htable]
        exact projects_update ht hdoes i
      | exit exitCode =>
        obtain ⟨task, inner, t, tid, allocator, htask, -, ht, hdealloc, -, htable⟩ :=
          exitCurrentAndRunNext_eq hcall
        simp only [lifeEvents, htask, lifeOf_singleton, htable]
        exact projects_update ht (.exit hdealloc) i
      | waittid tid =>
        obtain ⟨⟨_, result⟩, hwait, rfl⟩ := map_eq_some_iff.mp hcall
        obtain ⟨task, inner, htask, -⟩ := hat
        exact sysWaittid_projects h htask hwait i
      | _ => cases hmanages

theorem counted_table {history : List (Nat × LifeEvent)}
    (h : Run (· = boot) (Labelled lifeEvents) history σ) (ht : σ.tableOf process = some t) :
    Counted t (lifeOf process history) := by
  refine counted_of_run ((Run.project (fun σ : Kernel => σ.tableOf process) ?_ ?_
    (h.assuming reachable_of_run)).2 t ht)
  · rintro _ rfl t ht
    cases process with
    | zero =>
      cases ht
      exact ⟨rfl, rfl⟩
    | succ process => cases ht
  · rintro σ events σ' ⟨hreachable, choice, hchosen, rfl⟩
    exact hchosen.table_projects hreachable process

/-- `fork` gets past its assertion, and then to its end, in a process with one entry. -/
theorem Reachable.sysFork_isSome_iff (h : Reachable σ) (htask : σ.currentTask = some (task, inner))
    {p : Process} (hp : σ.processes[inner.process]? = some p) :
    σ.sysFork.isSome ↔ p.threadCount = 1 := by
  obtain ⟨ownTid, hown⟩ := ne_none_iff_exists'.mp (h.res_of_current htask)
  have hprocess : σ.currentProcess = some (inner.process, p) := by
    simp [currentProcess, htask, hp]
  have hslot := (h.slot_caller htask hp hown).mpr rfl
  rw [Process.threadCount, sysFork]
  simp only [hprocess, do_some]
  by_cases hone : p.tasks.length = 1
  · -- the only entry is that of the caller
    have hzero : ownTid = 0 := by
      have := lt_length_of_slot hslot
      omega
    rw [hzero] at hslot
    simp [hone, hslot, (currentTask_eq_some htask).2, hown]
  · simp [hone]

/-- **The number of threads.**  In every run, `thread_count` of a process is the number of its
threads that have been created and not yet reaped, if and only if that is also the largest
number that have been alive at once.  The assertions of `fork` and `exec` hold, and `fork`
returns, if and only if the process has created no thread so far. -/
theorem thread_count_matches_iff {history : List (Nat × LifeEvent)}
    (h : Run (· = boot) (Labelled lifeEvents) history σ) {p : Process}
    (hp : σ.processes[process]? = some p) :
    ((p.threadCount : Int) = unreaped (lifeOf process history) ↔
      mostAlive (lifeOf process history) = unreaped (lifeOf process history)) ∧
    (p.threadCount = 1 ↔ .create ∉ lifeOf process history) ∧
    ∀ task inner, σ.currentTask = some (task, inner) → inner.process = process →
      (σ.sysFork.isSome ↔ .create ∉ lifeOf process history) := by
  have ht : σ.tableOf process = some ⟨p.tasks, p.taskResAllocator⟩ := by
    rw [tableOf, hp]
    rfl
  have hcounted := counted_table h ht
  have hlength : p.threadCount = p.taskResAllocator.current := hcounted.length
  have hmost : mostAlive (lifeOf process history) = p.taskResAllocator.current := hcounted.most
  have hsingle : p.threadCount = 1 ↔ .create ∉ lifeOf process history := by
    rw [hlength]
    exact hcounted.single
  refine ⟨?_, hsingle, ?_⟩
  · rw [hlength, hmost]
  · rintro task inner htask rfl
    rw [(reachable_of_run h).sysFork_isSome_iff htask hp]
    exact hsingle

/-- The main thread has created another thread. -/
theorem thread_count_matches_iff_two : ∃ σ p,
    Run (· = boot) (Labelled lifeEvents) [(0, .create)] σ ∧ σ.processes[0]? = some p ∧
      (p.threadCount : Int) = unreaped [.create] := by
  obtain ⟨σ, p, hperform, hp⟩ : ∃ σ p,
      boot.performAll lifeEvents [.runTasks, .syscall .threadCreate] = some ([(0, .create)], σ) ∧
        σ.processes[0]? = some p := ⟨_, _, rfl, rfl⟩
  have hboot : Run (· = boot) (Labelled lifeEvents) [] boot := .start rfl
  have hrun := run_of_performAll hboot _ hperform
  exact ⟨σ, p, hrun, hp, (thread_count_matches_iff hrun hp).1.mpr (by decide)⟩

/-- A thread is created, exits and is waited for: only the main thread remains, but the count is
two, and `fork` panics.  And a thread that gets the identifier of one that has exited is not
counted beside it. -/
theorem thread_count_after_join :
    (∃ σ p, Run (· = boot) (Labelled lifeEvents) [(0, .create), (0, .exit), (0, .reap)] σ ∧
      σ.current = some 0 ∧ σ.processes[0]? = some p ∧ unreaped [.create, .exit, .reap] = 1 ∧
      p.threadCount = 2 ∧ σ.sysFork = none) ∧
    ∃ σ p, Run (· = boot) (Labelled lifeEvents) [(0, .create), (0, .exit), (0, .create)] σ ∧
      σ.processes[0]? = some p ∧ unreaped [.create, .exit, .create] = 3 ∧ p.threadCount = 2 := by
  have hboot : Run (· = boot) (Labelled lifeEvents) [] boot := .start rfl
  constructor
  · obtain ⟨σ, p, hperform, hrest⟩ : ∃ σ p, boot.performAll lifeEvents
        (exitRun 7 ++ [.syscall (.waittid 1)]) = some ([(0, .create), (0, .exit), (0, .reap)], σ) ∧
          σ.current = some 0 ∧ σ.processes[0]? = some p ∧ unreaped [.create, .exit, .reap] = 1 ∧
          p.threadCount = 2 ∧ σ.sysFork = none := ⟨_, _, rfl, rfl, rfl, by decide, rfl, rfl⟩
    exact ⟨σ, p, run_of_performAll hboot _ hperform, hrest⟩
  · obtain ⟨σ, p, hperform, hrest⟩ : ∃ σ p, boot.performAll lifeEvents
        (exitRun 7 ++ [.syscall .threadCreate]) =
          some ([(0, .create), (0, .exit), (0, .create)], σ) ∧
          σ.processes[0]? = some p ∧ unreaped [.create, .exit, .create] = 3 ∧
          p.threadCount = 2 := ⟨_, _, rfl, rfl, by decide, rfl⟩
    exact ⟨σ, p, run_of_performAll hboot _ hperform, hrest⟩

end Kernel

end RCore.Task
