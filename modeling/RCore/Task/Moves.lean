import RCore.Task.ExitPath

/-!
# What a thread does to the threads

The frame of the steps that one thread makes: the other threads are not touched, and a
thread that is created belongs to the process of its creator or to a new one.
-/

namespace RCore.Task

open List Option

namespace Kernel

variable {t tid : Nat}

variable {κ κ' : Kernel} {task : Nat} {inner : TaskControlBlock}

/-- The process of a thread. -/
def processOf (κ : Kernel) (t : Nat) : Option Nat :=
  κ.tasks[t]?.map (·.process)

theorem processOf_eq (h : κ.tasks[t]? = some inner) : κ.processOf t = some inner.process := by
  rw [processOf, h, Option.map_some]

/-- The other threads stay as they are; those that are created have not run, and belong to
the process of `task` or to one of the `new` processes. -/
structure Moves (κ κ' : Kernel) (task new : Nat) : Prop where
  length : κ'.processes.length = κ.processes.length + new
  resume : KeepsResume κ κ'
  other : ∀ t, t ≠ task → t < κ.tasks.length → κ'.threadOf t = κ.threadOf t
  own : κ'.processOf task = κ.processOf task
  created : ∀ t inner, κ.tasks.length ≤ t → κ'.tasks[t]? = some inner →
    inner.resume = .user ∧ inner.exitCode = none ∧
      (κ.processOf task = some inner.process ∨
        κ.processes.length ≤ inner.process ∧ inner.process < κ.processes.length + new)

theorem lt_length_of_getElem? (h : κ.tasks[t]? = some inner) : t < κ.tasks.length :=
  (List.getElem?_eq_some_iff.mp h).1

theorem lt_length_of_processOf {process : Nat} (h : κ.processOf t = some process) :
    t < κ.tasks.length := by
  obtain ⟨inner, hinner, -⟩ := map_eq_some_iff.mp h
  exact lt_length_of_getElem? hinner

theorem exists_of_threadOf_eq {inner' : TaskControlBlock} (h : κ'.threadOf t = κ.threadOf t)
    (hinner' : κ'.tasks[t]? = some inner') :
    ∃ old, κ.tasks[t]? = some old ∧ old.process = inner'.process ∧
      old.exitCode = inner'.exitCode := by
  rw [threadOf_eq hinner'] at h
  obtain ⟨old, hold, heq⟩ := map_eq_some_iff.mp h.symm
  obtain ⟨hprocess, -, hcode⟩ := Thread.mk.inj heq
  exact ⟨old, hold, hprocess, hcode⟩

theorem processOf_eq_of_threadOf (h : κ'.threadOf t = κ.threadOf t) :
    κ'.processOf t = κ.processOf t := by
  have hmap := congrArg (Option.map Thread.process) h
  rwa [threadOf, threadOf, Option.map_map, Option.map_map] at hmap

theorem Moves.processOf_eq {new : Nat} (h : Moves κ κ' task new) (ht : t < κ.tasks.length) :
    κ'.processOf t = κ.processOf t := by
  by_cases htask : t = task
  · rw [htask]
    exact h.own
  · exact processOf_eq_of_threadOf (h.other t htask ht)

theorem tableOf_eq_none {i : Nat} : κ.tableOf i = none ↔ κ.processes.length ≤ i := by
  rw [tableOf, map_eq_none_iff, getElem?_eq_none_iff]

theorem threadOf_eq_none : κ.threadOf t = none ↔ κ.tasks.length ≤ t := by
  rw [threadOf, map_eq_none_iff, getElem?_eq_none_iff]

theorem Moves.refl (κ : Kernel) (task : Nat) : Moves κ κ task 0 where
  length := rfl
  resume := fun _ _ _ h => h
  other := fun _ _ _ => rfl
  own := rfl
  created := fun _ _ hge h => absurd (lt_length_of_getElem? h) (Nat.not_lt.mpr hge)

theorem Frame.length (h : Frame κ κ') : κ'.processes.length = κ.processes.length := by
  apply Nat.le_antisymm
  · rw [← tableOf_eq_none, h.table, tableOf_eq_none]
  · rw [← tableOf_eq_none, ← h.table, tableOf_eq_none]

theorem Frame.length_tasks (h : Frame κ κ') : κ'.tasks.length = κ.tasks.length := by
  apply Nat.le_antisymm
  · rw [← threadOf_eq_none, h.thread, threadOf_eq_none]
  · rw [← threadOf_eq_none, ← h.thread, threadOf_eq_none]

theorem Frame.moves (h : Frame κ κ') (task : Nat) : Moves κ κ' task 0 where
  length := h.length
  resume := h.resume
  other := fun t _ _ => congrFun h.thread t
  own := processOf_eq_of_threadOf (congrFun h.thread task)
  created := by
    intro t inner hge hinner
    obtain ⟨old, hold, -⟩ := exists_of_threadOf_eq (congrFun h.thread t) hinner
    exact absurd (lt_length_of_getElem? hold) (Nat.not_lt.mpr hge)

theorem moves_of_modify {f : TaskControlBlock → TaskControlBlock}
    (hcur : κ.current = some task) (htasks : κ'.tasks = κ.tasks.modify task f)
    (hf : ∀ inner, (f inner).process = inner.process)
    (hlen : κ'.processes.length = κ.processes.length) : Moves κ κ' task 0 where
  length := hlen
  resume := keepsResume_of_modify hcur htasks
  other := by
    intro t hne _
    simp [threadOf, htasks, Ne.symm hne]
  own := by
    rw [processOf, processOf, htasks, getElem?_modify]
    cases κ.tasks[task]? with
    | none => rfl
    | some inner => simp [hf]
  created := by
    intro t inner hge hinner
    have hlt := lt_length_of_getElem? hinner
    rw [htasks, length_modify] at hlt
    omega

theorem moves_of_append {process new : Nat} (hcur : κ.currentTask = some (task, inner))
    (htasks : κ'.tasks = κ.tasks ++ [.new process tid]) (hprocess : inner.process = process ∨
      κ.processes.length ≤ process ∧ process < κ.processes.length + new)
    (hlen : κ'.processes.length = κ.processes.length + new) : Moves κ κ' task new := by
  have hinner := (currentTask_eq_some hcur).2
  have hold : ∀ t < κ.tasks.length, κ'.threadOf t = κ.threadOf t := by
    intro t ht
    rw [threadOf, threadOf, htasks, getElem?_append_left ht]
  refine ⟨hlen, keepsResume_of_append htasks, fun t _ ht => hold t ht, ?_, fun t new hge hnew => ?_⟩
  · exact processOf_eq_of_threadOf (hold task (lt_length_of_getElem? hinner))
  · rw [htasks, getElem?_append_right hge, getElem?_singleton] at hnew
    split at hnew
    · cases hnew
      rw [processOf_eq hinner]
      refine ⟨rfl, rfl, hprocess.imp_left fun heq => ?_⟩
      exact congrArg some heq
    · cases hnew

theorem moves_exitCurrentAndRunNext {exitCode : Int} (hcur : κ.currentTask = some (task, inner))
    (h : κ.exitCurrentAndRunNext exitCode = some κ') :
    Moves κ κ' task 0 ∧ κ'.tasks.length = κ.tasks.length := by
  simp only [exitCurrentAndRunNext, hcur, do_some, do_eq_some_iff] at h
  obtain ⟨process, hprocess, tid, htid, allocator, halloc, h⟩ := h
  have hboth : κ'.tasks = κ.tasks.modify task
        (fun inner => { inner with exitCode := some exitCode, res := none }) ∧
      κ'.processes.length = κ.processes.length := by
    split at h
    · split at h
      · cases h
      · cases h
        exact ⟨rfl, by simp [updateProcess, updateTask]⟩
    · cases h
      exact ⟨rfl, by simp [updateProcess, updateTask]⟩
  obtain ⟨htasks, hlen⟩ := hboth
  refine ⟨moves_of_modify (currentTask_eq_some hcur).1 htasks (fun _ => rfl) hlen, ?_⟩
  rw [htasks, length_modify]

theorem moves_sysFork (hcur : κ.currentTask = some (task, inner)) (h : κ.sysFork = some κ') :
    Moves κ κ' task 1 := by
  simp only [sysFork, bind_eq_bind, bind_eq_some_iff] at h
  obtain ⟨⟨index, process⟩, -, h⟩ := h
  split at h
  · cases h
  · simp only [bind_eq_some_iff, Option.some.injEq] at h
    obtain ⟨mainTask, -, mainInner, -, ownTid, -, rfl⟩ := h
    refine moves_of_append hcur rfl (.inr ⟨Nat.le_refl _, Nat.lt_succ_self _⟩) ?_
    simp [addTask]

theorem moves_sysThreadCreate (hcur : κ.currentTask = some (task, inner))
    (h : κ.sysThreadCreate = some (κ', tid)) : Moves κ κ' task 0 := by
  simp only [sysThreadCreate, hcur, do_some, do_eq_some_iff, Option.some.injEq, Prod.mk.injEq] at h
  obtain ⟨process, -, ownTid, -, rfl, rfl⟩ := h
  refine moves_of_append hcur rfl (.inl rfl) ?_
  simp [updateProcess, addTask]

theorem moves_sysWaittid {result : Int} (hcur : κ.currentTask = some (task, inner))
    (h : κ.sysWaittid tid = some (κ', result)) : Moves κ κ' task 0 := by
  simp only [sysWaittid, hcur, do_some, do_eq_some_iff] at h
  obtain ⟨process, -, ownTid, -, h⟩ := h
  split at h
  · cases h
    exact .refl κ task
  · obtain ⟨entry, -, h⟩ := bind_eq_some_iff.mp h
    split at h
    · cases h
      exact .refl κ task
    · obtain ⟨waited, -, h⟩ := bind_eq_some_iff.mp h
      split at h
      · cases h
        refine moves_of_modify (f := id) (currentTask_eq_some hcur).1 ?_ (fun _ => rfl) ?_
        · simp [updateProcess]
        · simp [updateProcess]
      · cases h
        exact .refl κ task

theorem moves_syscall {call : Syscall} (hcur : κ.currentTask = some (task, inner))
    (hfork : call ≠ .fork) (h : κ.syscall call = some κ') : Moves κ κ' task 0 := by
  obtain ⟨hcurrent, hinner⟩ := currentTask_eq_some hcur
  cases hmanages : call.managesThreads with
  | false => exact ((acts_syscall hcurrent hinner h).observed.frame hmanages).moves task
  | true =>
    cases call with
    | fork => exact absurd rfl hfork
    | exit exitCode => exact (moves_exitCurrentAndRunNext hcur h).1
    | threadCreate =>
      obtain ⟨⟨_, tid⟩, hcall, rfl⟩ := map_eq_some_iff.mp h
      exact moves_sysThreadCreate hcur hcall
    | waittid tid =>
      obtain ⟨⟨_, result⟩, hcall, rfl⟩ := map_eq_some_iff.mp h
      exact moves_sysWaittid hcur hcall
    | _ => cases hmanages

theorem exited_of_main_exit {exitCode : Int} (hκ : κ.Reachable) (huser : inner.resume = .user)
    (hcur : κ.currentTask = some (task, inner)) (hmain : inner.res = some 0)
    (h : κ.exitCurrentAndRunNext exitCode = some κ') {inner' : TaskControlBlock}
    (hinner' : κ'.tasks[t]? = some inner') (hprocess : inner'.process = inner.process) :
    inner'.exitCode ≠ none := by
  intro hnone
  have hκ' : κ'.Reachable := hκ.step (.syscall (.exit exitCode) ⟨task, inner, hcur, huser⟩ h)
  have hres := (hκ'.threadInv.res_iff (threadOf_eq hinner')).mpr hnone
  obtain ⟨tid, htid⟩ := isSome_iff_exists.mp hres
  obtain ⟨p', -, hp', hmem, -⟩ := hκ'.exists_process hinner' htid
  simp only [exitCurrentAndRunNext, hcur, hmain, do_some, do_eq_some_iff, if_true] at h
  obtain ⟨p, hp, allocator, halloc, h⟩ := h
  split at h
  · cases h
  · next hnone =>
    cases h
    rw [not_or] at hnone
    apply hnone.2
    have hsame : p'.tasks = p.tasks := by
      rw [hprocess] at hp'
      simp only [updateProcess, getElem?_modify, updateTask, hp, if_true, Option.map_eq_map,
        Option.map_some, Option.some.injEq] at hp'
      rw [← hp']
    rw [hsame] at hmem
    refine any_eq_true.mpr ⟨some t, hmem, ?_⟩
    simp only [updateProcess, updateTask, bind_some] at hinner' ⊢
    rw [hinner']
    exact hres

end Kernel

end RCore.Task
