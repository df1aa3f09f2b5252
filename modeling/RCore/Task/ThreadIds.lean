import RCore.Task.Effects

/-!
# Thread identifiers

A thread gives its identifier back when it exits, but its entry in the table of the
process stays until `sys_waittid`.  The identifier may be handed out again in
between, and the new thread then takes the entry of the exited one.
-/

namespace RCore.Task

open RCore.Lib.History Function List Option

variable {th new : Thread} {tid : Nat} {exitCode : Int} {inner : TaskControlBlock}

inductive ThreadEvent where
  /-- `sys_thread_create` returns the identifier -/
  | create (process tid : Nat)
  | exit (process tid : Nat) (exitCode : Int)
  /-- `sys_waittid` returns the result -/
  | waittid (process tid : Nat) (result : Int)
  deriving DecidableEq, Repr

def nextPending (pending : Nat → Nat → Option Int) : ThreadEvent → Nat → Nat → Option Int
  | .create _ _ => pending
  | .exit process tid exitCode => fun process' tid' =>
      if process' = process ∧ tid' = tid then some exitCode else pending process' tid'
  | .waittid process tid _ => fun process' tid' =>
      if process' = process ∧ tid' = tid then none else pending process' tid'

/-- The exit code of a thread that has exited and has not been waited for since. -/
def pending (history : List ThreadEvent) : Nat → Nat → Option Int :=
  history.foldl nextPending fun _ _ => none

@[simp] theorem pending_concat (history : List ThreadEvent) (event : ThreadEvent) :
    pending (history ++ [event]) = nextPending (pending history) event := by
  simp [pending]

/-- No identifier is returned that belongs to an exited thread nobody waited for. -/
def FreshTids (history : List ThreadEvent) : Prop :=
  Always (fun past event => ∀ process tid, event = .create process tid →
    pending past process tid = none) history

/-- The first `sys_waittid` after the exit of a thread returns its exit code. -/
def ReportsExitCodes (history : List ThreadEvent) : Prop :=
  Always (fun past event => ∀ process tid result exitCode,
    event = .waittid process tid result → pending past process tid = some exitCode →
      result = exitCode) history

namespace Kernel

def threadEvents (σ : Kernel) (choice : Choice) (_ : Kernel) : List ThreadEvent :=
  match choice, σ.currentTask with
  | .syscall .threadCreate, some (_, inner) =>
      σ.sysThreadCreate.toList.map fun (_, tid) => .create inner.process tid
  | .syscall (.exit exitCode), some (_, inner) =>
      inner.res.toList.map fun tid => .exit inner.process tid exitCode
  | .syscall (.waittid tid), some (_, inner) =>
      (σ.sysWaittid tid).toList.map fun (_, result) => .waittid inner.process tid result
  | _, _ => []

/-! ## The table of threads -/

/-- What holds of the threads and the tables of the processes in every state. -/
structure ThreadInv (thread : Nat → Option Thread) (table : Nat → Option ThreadTable) : Prop where
  res_iff : ∀ {task th}, thread task = some th → (th.res.isSome ↔ th.exitCode = none)
  live : ∀ {task th tid}, thread task = some th → th.res = some tid →
    ∃ t, table th.process = some t ∧ slot t.tasks tid = some task ∧
      tid ∉ t.allocator.recycled
  entry : ∀ {process t tid task}, table process = some t → slot t.tasks tid = some task →
    tid < t.allocator.current ∧
      ∃ th, thread task = some th ∧ th.process = process ∧ (th.res = none ∨ th.res = some tid)
  recycled : ∀ {process t}, table process = some t → t.allocator.recycled.Nodup ∧
    ∀ id ∈ t.allocator.recycled, id < t.allocator.current

theorem slot_set {list : List (Option Nat)} {id : Nat} (h : id < list.length) (object : Option Nat)
    (i : Nat) : slot (list.set id object) i = if id = i then object else slot list i := by
  by_cases heq : id = i
  · subst heq
    simp [slot, h]
  · simp [slot, heq]

theorem lt_length_of_slot {list : List (Option Nat)} {id object : Nat}
    (h : slot list id = some object) : id < list.length := by
  by_contra hge
  simp [slot, getElem?_eq_none (Nat.le_of_not_lt hge)] at h

theorem slot_append_replicate (list : List (Option Nat)) (n i : Nat) :
    slot (list ++ replicate n none) i = slot list i := by
  rw [slot, slot, getElem?_append]
  split
  · rfl
  · next h =>
    rw [getElem?_eq_none (Nat.le_of_not_lt h), getElem?_replicate]
    split <;> rfl

variable {thread : Nat → Option Thread} {table : Nat → Option ThreadTable} {task process : Nat}
  {t : ThreadTable}

theorem update_eq_some {α : Type} {f : Nat → Option α} {a x : Nat} {b c : α} :
    update f a (some b) x = some c ↔ x = a ∧ b = c ∨ x ≠ a ∧ f x = some c := by
  by_cases h : x = a
  · subst h
    simp
  · simp [h]

/-- What `alloc` returns is recycled or new, and is not recycled any more. -/
theorem alloc_cases {a : RecycleAllocator} (hnodup : a.recycled.Nodup)
    (hlt : ∀ id ∈ a.recycled, id < a.current) :
    (a.recycled.head? = some a.alloc.1 ∨ a.alloc.1 = a.current) ∧
      a.alloc.1 < a.alloc.2.current ∧ a.current ≤ a.alloc.2.current ∧
      a.alloc.1 ∉ a.alloc.2.recycled ∧ a.alloc.2.recycled.Nodup ∧
      ∀ id ∈ a.alloc.2.recycled, id ∈ a.recycled := by
  rw [RecycleAllocator.alloc]
  cases hrecycled : a.recycled with
  | nil => simp
  | cons id rest =>
    rw [hrecycled] at hnodup hlt
    obtain ⟨hid, hrest⟩ := nodup_cons.mp hnodup
    refine ⟨.inl rfl, hlt id mem_cons_self, Nat.le_refl _, hid, hrest, ?_⟩
    exact fun other hother => mem_cons_of_mem _ hother

namespace ThreadInv

section

variable (h : ThreadInv thread table)
include h

/-- The identifier that `alloc` returns belongs to no live thread. -/
theorem res_ne_alloc (ht : table process = some t) (hth : thread task = some th)
    (hprocess : th.process = process) : th.res ≠ some t.allocator.alloc.1 := by
  intro hres
  obtain ⟨t', ht', hslot, hnot⟩ := h.live hth hres
  rw [hprocess, ht, Option.some.injEq] at ht'
  subst ht'
  rcases (alloc_cases (h.recycled ht).1 (h.recycled ht).2).1 with hhead | heq
  · exact hnot (mem_of_mem_head? hhead)
  · have := (h.entry ht hslot).1
    omega

/-- One thread and the table of its process change. -/
theorem next {t' : ThreadTable} (hold : ∀ {th}, thread task = some th → th.process = new.process)
    (hres : new.res.isSome ↔ new.exitCode = none)
    (hlive : ∀ {other th tid}, update thread task (some new) other = some th →
      th.process = new.process → th.res = some tid → slot t'.tasks tid = some other ∧
      tid ∉ t'.allocator.recycled)
    (hentry : ∀ {tid other}, slot t'.tasks tid = some other → tid < t'.allocator.current ∧ ∃ th,
      update thread task (some new) other = some th ∧ th.process = new.process ∧
      (th.res = none ∨ th.res = some tid))
    (hrecycled : t'.allocator.recycled.Nodup ∧ ∀ id ∈ t'.allocator.recycled,
      id < t'.allocator.current) :
    ThreadInv (update thread task (some new))
      (update table new.process (some t')) := by
  refine ⟨?_, ?_, ?_, ?_⟩
  · intro other th hth
    rcases update_eq_some.mp hth with ⟨-, rfl⟩ | ⟨-, hth⟩
    · exact hres
    · exact h.res_iff hth
  · intro other th tid hth hown
    by_cases hprocess : th.process = new.process
    · rw [hprocess, update_self]
      exact ⟨t', rfl, hlive hth hprocess hown⟩
    · rw [update_of_ne hprocess]
      rcases update_eq_some.mp hth with ⟨-, rfl⟩ | ⟨-, hth⟩
      · exact absurd rfl hprocess
      · exact h.live hth hown
  · intro p t tid other ht hslot
    rcases update_eq_some.mp ht with ⟨rfl, rfl⟩ | ⟨hne, ht⟩
    · exact hentry hslot
    · obtain ⟨htid, th, hth, rfl, hrest⟩ := h.entry ht hslot
      have hother : other ≠ task := fun heq => hne (hold (heq ▸ hth))
      exact ⟨htid, th, by rwa [update_of_ne hother], rfl, hrest⟩
  · intro p t ht
    rcases update_eq_some.mp ht with ⟨rfl, rfl⟩ | ⟨-, ht⟩
    · exact hrecycled
    · exact h.recycled ht

/-- A new thread takes the entry of its identifier. -/
theorem create (ht : table process = some t) (hnew : thread task = none)
    {tasks : List (Option Nat)}
    (htasks : ∀ i, slot tasks i = if t.allocator.alloc.1 = i then some task else slot t.tasks i) :
    ThreadInv (update thread task (some ⟨process, some t.allocator.alloc.1, none⟩))
      (update table process (some ⟨tasks, t.allocator.alloc.2⟩)) := by
  obtain ⟨hnodup, hlt⟩ := h.recycled ht
  obtain ⟨-, hcurrent, hgrows, hfresh, hnodup', hsubset⟩ := alloc_cases hnodup hlt
  refine h.next (fun hth => by simp [hnew] at hth) (by simp) ?_ ?_
    ⟨hnodup', fun id hid => Nat.lt_of_lt_of_le (hlt id (hsubset id hid)) hgrows⟩
  · intro other th tid hth hprocess hres
    rcases update_eq_some.mp hth with ⟨rfl, rfl⟩ | ⟨-, hth⟩
    · cases hres
      exact ⟨by simp [htasks], hfresh⟩
    · have hne : t.allocator.alloc.1 ≠ tid :=
        fun heq => h.res_ne_alloc ht hth hprocess (heq ▸ hres)
      obtain ⟨t', ht', hslot, hnot⟩ := h.live hth hres
      cases ht.symm.trans (hprocess ▸ ht')
      exact ⟨by simp [htasks, hne, hslot], fun hmem => hnot (hsubset _ hmem)⟩
  · intro tid other hslot
    simp only [htasks] at hslot
    split at hslot
    · next heq =>
      cases hslot
      exact ⟨heq ▸ hcurrent, _, update_self .., rfl, .inr (heq ▸ rfl)⟩
    · obtain ⟨htid, th, hth, hrest⟩ := h.entry ht hslot
      have hother : other ≠ task := fun heq => by simp [heq, hnew] at hth
      exact ⟨Nat.lt_of_lt_of_le htid hgrows, th, by rwa [update_of_ne hother], hrest⟩

/-- A thread that exits keeps its entry and gives its identifier back. -/
theorem exit (hth : thread task = some ⟨process, some tid, none⟩) (ht : table process = some t)
    {allocator : RecycleAllocator} (hdealloc : t.allocator.dealloc tid = some allocator) :
    ThreadInv (update thread task (some ⟨process, none, some exitCode⟩))
      (update table process (some ⟨t.tasks, allocator⟩)) := by
  rw [RecycleAllocator.dealloc, ite_none_right_eq_some, Option.some.injEq] at hdealloc
  obtain ⟨⟨htid, hfresh⟩, rfl⟩ := hdealloc
  obtain ⟨hnodup, hlt⟩ := h.recycled ht
  have hrecycled : (tid :: t.allocator.recycled).Nodup ∧
      ∀ id ∈ tid :: t.allocator.recycled, id < t.allocator.current :=
    ⟨nodup_cons.mpr ⟨hfresh, hnodup⟩, forall_mem_cons.mpr ⟨htid, hlt⟩⟩
  refine h.next (fun hth' => by cases hth.symm.trans hth'; rfl) (by simp) ?_ ?_ hrecycled
  · intro other th id hth' hprocess hres
    rcases update_eq_some.mp hth' with ⟨-, rfl⟩ | ⟨hne, hth'⟩
    · cases hres
    · obtain ⟨t', ht', hslot, hnot⟩ := h.live hth' hres
      cases ht.symm.trans (hprocess ▸ ht')
      refine ⟨hslot, fun hmem => ?_⟩
      rcases mem_cons.mp hmem with rfl | hmem
      · -- the entry of the identifier is that of the exiting thread
        obtain ⟨_, ht'', hslot', -⟩ := h.live hth rfl
        cases ht.symm.trans ht''
        exact hne (Option.some.inj (hslot.symm.trans hslot'))
      · exact hnot hmem
  · intro id other hslot
    obtain ⟨hid, th, hth', hprocess, hres⟩ := h.entry ht hslot
    refine ⟨hid, ?_⟩
    by_cases heq : other = task
    · subst heq
      exact ⟨_, update_self .., rfl, .inl rfl⟩
    · exact ⟨th, by rwa [update_of_ne heq], hprocess, hres⟩

/-- An exited thread that has been waited for leaves the table. -/
theorem waittid (ht : table process = some t) (hslot : slot t.tasks tid = some task)
    (hth : thread task = some th) (hexited : th.exitCode ≠ none) :
    ThreadInv thread (update table process (some ⟨t.tasks.set tid none, t.allocator⟩)) := by
  have htid := lt_length_of_slot hslot
  obtain ⟨-, _, hth', rfl, -⟩ := h.entry ht hslot
  cases hth.symm.trans hth'
  have hsame : update thread task (some th) = thread :=
    update_eq_self_iff.mpr hth.symm
  rw [← hsame]
  have hrecycled := h.recycled ht
  refine h.next (fun hth' => by cases hth.symm.trans hth'; rfl) (h.res_iff hth) ?_ ?_ hrecycled
  · rw [hsame]
    intro other th' id hth' hprocess hres
    obtain ⟨t', ht', hslot', hnot⟩ := h.live hth' hres
    cases ht.symm.trans (hprocess ▸ ht')
    have hne : tid ≠ id := by
      rintro rfl
      -- a live thread is not the exited one in the entry
      cases hslot.symm.trans hslot'
      cases hth.symm.trans hth'
      exact hexited ((h.res_iff hth).mp (by simp [hres]))
    exact ⟨by rw [slot_set htid, if_neg hne, hslot'], hnot⟩
  · rw [hsame]
    intro id other hslot'
    rw [slot_set htid] at hslot'
    split at hslot'
    · cases hslot'
    · have hentry := h.entry ht hslot'
      exact hentry

/-- A new process has one thread, with the identifier 0. -/
theorem fork (hprocess : table process = none) (htask : thread task = none) :
    ThreadInv (update thread task (some ⟨process, some 0, none⟩))
      (update table process (some ⟨[some task], ⟨1, []⟩⟩)) := by
  refine h.next (fun hth => by simp [htask] at hth) (by simp) ?_ ?_ (by simp)
  · intro other th tid hth hown hres
    rcases update_eq_some.mp hth with ⟨rfl, rfl⟩ | ⟨-, hth⟩
    · cases hres
      exact ⟨rfl, by simp⟩
    · obtain ⟨t', ht', -⟩ := h.live hth hres
      simp [hown, hprocess] at ht'
  · intro tid other hslot
    cases tid with
    | zero =>
      cases hslot
      exact ⟨Nat.zero_lt_one, _, update_self .., rfl, .inr rfl⟩
    | succ tid => simp [slot] at hslot

end

end ThreadInv

/-! ## The threads of the kernel -/

variable {σ σ' : Kernel}

theorem threadOf_append (htasks : σ'.tasks = σ.tasks ++ [inner])
    (hnew : ⟨inner.process, inner.res, inner.exitCode⟩ = new) :
    σ'.threadOf = update σ.threadOf σ.tasks.length (some new) := by
  subst hnew
  funext task
  rw [threadOf, htasks]
  rcases Nat.lt_trichotomy task σ.tasks.length with h | h | h
  · rw [update_of_ne (Nat.ne_of_lt h), getElem?_append_left h, threadOf]
  · subst h
    simp
  · rw [update_of_ne (Nat.ne_of_gt h), threadOf, getElem?_eq_none (Nat.le_of_lt h),
      getElem?_eq_none (by rw [length_append, length_singleton]; omega)]

theorem threadOf_length (σ : Kernel) : σ.threadOf σ.tasks.length = none := by
  simp [threadOf]

theorem tableOf_length (σ : Kernel) : σ.tableOf σ.processes.length = none := by
  simp [tableOf]

theorem threadOf_update {task : Nat} {f : TaskControlBlock → TaskControlBlock}
    (hinner : σ.tasks[task]? = some inner) (htasks : σ'.tasks = σ.tasks.modify task f)
    (hnew : ⟨(f inner).process, (f inner).res, (f inner).exitCode⟩ = new) :
    σ'.threadOf = update σ.threadOf task (some new) := by
  subst hnew
  funext other
  by_cases h : other = task
  · subst h
    simp [threadOf, htasks, hinner]
  · simp [threadOf, htasks, h, Ne.symm h]

theorem tableOf_update {process : Nat} {inner : Process} {f : Process → Process}
    {new : ThreadTable} (hinner : σ.processes[process]? = some inner)
    (hprocesses : σ'.processes = σ.processes.modify process f)
    (hnew : ⟨(f inner).tasks, (f inner).taskResAllocator⟩ = new) :
    σ'.tableOf = update σ.tableOf process (some new) := by
  subst hnew
  funext other
  by_cases h : other = process
  · subst h
    simp [tableOf, hprocesses, hinner]
  · simp [tableOf, hprocesses, h, Ne.symm h]

theorem threadOf_eq {task : Nat} (h : σ.tasks[task]? = some inner) :
    σ.threadOf task = some ⟨inner.process, inner.res, inner.exitCode⟩ := by
  rw [threadOf, h]
  rfl

theorem sysThreadCreate_eq (h : σ.sysThreadCreate = some (σ', tid)) :
    ∃ task inner t tasks, σ.currentTask = some (task, inner) ∧
      σ.tableOf inner.process = some t ∧ tid = t.allocator.alloc.1 ∧
      (∀ i, slot tasks i = if tid = i then some σ.tasks.length else slot t.tasks i) ∧
      σ'.threadOf =
        update σ.threadOf σ.tasks.length (some ⟨inner.process, some tid, none⟩) ∧
      σ'.tableOf = update σ.tableOf inner.process (some ⟨tasks, t.allocator.alloc.2⟩) := by
  simp only [sysThreadCreate, do_eq_some_iff, Option.some.injEq, Prod.mk.injEq] at h
  obtain ⟨⟨task, inner⟩, htask, process, hprocess, ownTid, -, rfl, rfl⟩ := h
  refine ⟨task, inner, ⟨process.tasks, process.taskResAllocator⟩, _, htask, ?_, rfl, ?_,
    threadOf_append rfl rfl, tableOf_update hprocess rfl rfl⟩
  · rw [tableOf, hprocess]
    rfl
  · intro i
    rw [slot_set (by rw [length_append, length_replicate]; omega), slot_append_replicate]

theorem exitCurrentAndRunNext_eq (h : σ.exitCurrentAndRunNext exitCode = some σ') :
    ∃ task inner t tid allocator, σ.currentTask = some (task, inner) ∧ inner.res = some tid ∧
      σ.tableOf inner.process = some t ∧ t.allocator.dealloc tid = some allocator ∧
      σ'.threadOf =
        update σ.threadOf task (some ⟨inner.process, none, some exitCode⟩) ∧
      σ'.tableOf = update σ.tableOf inner.process (some ⟨t.tasks, allocator⟩) := by
  simp only [exitCurrentAndRunNext, do_eq_some_iff] at h
  obtain ⟨⟨task, inner⟩, htask, process, hprocess, tid, htid, allocator, halloc, h⟩ := h
  have hinner := (currentTask_eq_some htask).2
  refine ⟨task, inner, ⟨process.tasks, process.taskResAllocator⟩, tid, allocator, htask, htid,
    by rw [tableOf, hprocess]; rfl, halloc, ?_⟩
  split at h
  · split at h
    · simp at h
    · cases h
      refine ⟨threadOf_update hinner rfl rfl, ?_⟩
      refine (tableOf_updateProcess _ _ ?_).trans (tableOf_update hprocess rfl rfl)
      exact fun _ => ⟨rfl, rfl⟩
  · cases h
    exact ⟨threadOf_update hinner rfl rfl, tableOf_update hprocess rfl rfl⟩

theorem sysFork_eq (h : σ.sysFork = some σ') :
    σ'.threadOf = update σ.threadOf σ.tasks.length (some ⟨σ.processes.length, some 0, none⟩) ∧
      σ'.tableOf = update σ.tableOf σ.processes.length (some ⟨[some σ.tasks.length], ⟨1, []⟩⟩) := by
  simp only [sysFork, bind_eq_bind, bind_eq_some_iff] at h
  obtain ⟨⟨index, process⟩, -, h⟩ := h
  split at h
  · simp at h
  · simp only [bind_eq_some_iff, Option.some.injEq] at h
    obtain ⟨mainTask, -, mainInner, -, ownTid, -, rfl⟩ := h
    refine ⟨threadOf_append rfl rfl, ?_⟩
    funext other
    rw [tableOf]
    rcases Nat.lt_trichotomy other σ.processes.length with hlt | heq | hgt
    · simp [update_of_ne (Nat.ne_of_lt hlt), addTask, getElem?_append_left hlt, tableOf]
    · subst heq
      simp [addTask, RecycleAllocator.alloc, RecycleAllocator.new]
    · rw [update_of_ne (Nat.ne_of_gt hgt), tableOf,
        getElem?_eq_none (Nat.le_of_lt hgt), getElem?_eq_none (by
          simp only [addTask, length_append, length_singleton]; omega)]

theorem sysWaittid_eq {result : Int} (h : σ.sysWaittid tid = some (σ', result)) :
    ∃ task inner t, σ.currentTask = some (task, inner) ∧ inner.res.isSome ∧
      σ.tableOf inner.process = some t ∧ σ'.threadOf = σ.threadOf ∧
      (σ'.tableOf = σ.tableOf ∧ (inner.res = some tid ∨ slot t.tasks tid = none ∨
          ∃ waited th, slot t.tasks tid = some waited ∧ σ.threadOf waited = some th ∧
            th.exitCode = none) ∨
        ∃ waited th, slot t.tasks tid = some waited ∧ σ.threadOf waited = some th ∧
          th.exitCode = some result ∧
          σ'.tableOf = update σ.tableOf inner.process
            (some ⟨t.tasks.set tid none, t.allocator⟩)) := by
  simp only [sysWaittid, do_eq_some_iff] at h
  obtain ⟨⟨task, inner⟩, htask, process, hprocess, ownTid, hown, h⟩ := h
  refine ⟨task, inner, ⟨process.tasks, process.taskResAllocator⟩, htask,
    isSome_iff_exists.mpr ⟨ownTid, hown⟩, by rw [tableOf, hprocess]; rfl, ?_⟩
  split at h
  · next heq =>
    cases h
    exact ⟨rfl, .inl ⟨rfl, .inl (heq ▸ hown)⟩⟩
  · obtain ⟨entry, hentry, h⟩ := bind_eq_some_iff.mp h
    split at h
    · cases h
      exact ⟨rfl, .inl ⟨rfl, .inr (.inl (by rw [slot, hentry]; rfl))⟩⟩
    · next waited =>
      obtain ⟨waitedInner, hwaited, h⟩ := bind_eq_some_iff.mp h
      have hslot : slot process.tasks tid = some waited := by rw [slot, hentry]; rfl
      have hthread := threadOf_eq hwaited
      split at h
      · next exitCode hcode =>
        cases h
        exact ⟨rfl, .inr ⟨waited, _, hslot, hthread, hcode, tableOf_update hprocess rfl rfl⟩⟩
      · next hcode =>
        cases h
        exact ⟨rfl, .inl ⟨rfl, .inr (.inr ⟨waited, _, hslot, hthread, hcode⟩)⟩⟩

/-- What a step does to the threads and the tables. -/
inductive ThreadEffect (σ σ' : Kernel) : List ThreadEvent → Prop where
  | quiet (hthread : σ'.threadOf = σ.threadOf) (htable : σ'.tableOf = σ.tableOf) :
      ThreadEffect σ σ' []
  | fork (hthread : σ'.threadOf = Function.update σ.threadOf σ.tasks.length
        (some ⟨σ.processes.length, some 0, none⟩))
      (htable : σ'.tableOf = Function.update σ.tableOf σ.processes.length
        (some ⟨[some σ.tasks.length], ⟨1, []⟩⟩)) : ThreadEffect σ σ' []
  | create {process : Nat} {t : ThreadTable} {tasks : List (Option Nat)}
      (ht : σ.tableOf process = some t)
      (htasks : ∀ i, slot tasks i =
        if t.allocator.alloc.1 = i then some σ.tasks.length else slot t.tasks i)
      (hthread : σ'.threadOf = Function.update σ.threadOf σ.tasks.length
        (some ⟨process, some t.allocator.alloc.1, none⟩))
      (htable : σ'.tableOf =
        Function.update σ.tableOf process (some ⟨tasks, t.allocator.alloc.2⟩)) :
      ThreadEffect σ σ' [.create process t.allocator.alloc.1]
  | exit {task tid : Nat} {th : Thread} {exitCode : Int} {t : ThreadTable}
      {allocator : RecycleAllocator} (hth : σ.threadOf task = some th) (hres : th.res = some tid)
      (ht : σ.tableOf th.process = some t) (hdealloc : t.allocator.dealloc tid = some allocator)
      (hthread : σ'.threadOf =
        Function.update σ.threadOf task (some ⟨th.process, none, some exitCode⟩))
      (htable : σ'.tableOf =
        Function.update σ.tableOf th.process (some ⟨t.tasks, allocator⟩)) :
      ThreadEffect σ σ' [.exit th.process tid exitCode]
  | ask {task tid : Nat} {th : Thread} {t : ThreadTable} {result : Int}
      (hth : σ.threadOf task = some th) (hlive : th.res.isSome)
      (ht : σ.tableOf th.process = some t)
      (hnone : th.res = some tid ∨ slot t.tasks tid = none ∨
        ∃ waited th', slot t.tasks tid = some waited ∧ σ.threadOf waited = some th' ∧
          th'.exitCode = none)
      (hthread : σ'.threadOf = σ.threadOf) (htable : σ'.tableOf = σ.tableOf) :
      ThreadEffect σ σ' [.waittid th.process tid result]
  | reap {process tid waited : Nat} {th : Thread} {t : ThreadTable} {exitCode : Int}
      (ht : σ.tableOf process = some t) (hslot : slot t.tasks tid = some waited)
      (hth : σ.threadOf waited = some th) (hcode : th.exitCode = some exitCode)
      (hthread : σ'.threadOf = σ.threadOf)
      (htable : σ'.tableOf =
        Function.update σ.tableOf process (some ⟨t.tasks.set tid none, t.allocator⟩)) :
      ThreadEffect σ σ' [.waittid process tid exitCode]

theorem threadEvents_of_not_manages {choice : Choice} (h : choice.managesThreads = false) :
    σ.threadEvents choice σ' = [] := by
  unfold threadEvents
  split <;> first | rfl | simp [Choice.managesThreads, Syscall.managesThreads] at h

theorem Chosen.threadEffect {choice : Choice} (h : Chosen σ choice σ') :
    ThreadEffect σ σ' (σ.threadEvents choice σ') := by
  cases hmanages : choice.managesThreads with
  | false =>
    have hframe := h.observed.frame hmanages
    rw [threadEvents_of_not_manages hmanages]
    exact .quiet hframe.thread hframe.table
  | true =>
    cases h with
    | runTasks | timer | lock | pollAgain | pollDone => simp [Choice.managesThreads] at hmanages
    | @syscall _ call hat h =>
      cases call with
      | fork =>
        obtain ⟨hthread, htable⟩ := sysFork_eq h
        have hevents : σ.threadEvents (.syscall .fork) σ' = [] := by
          unfold threadEvents
          split <;> first | rfl | simp_all
        rw [hevents]
        exact .fork hthread htable
      | threadCreate =>
        obtain ⟨⟨_, tid⟩, hcall, rfl⟩ := map_eq_some_iff.mp h
        obtain ⟨task, inner, t, tasks, htask, ht, rfl, htasks, hthread, htable⟩ :=
          sysThreadCreate_eq hcall
        simp only [threadEvents, htask, hcall, toList_some, map_cons, map_nil]
        exact .create ht htasks hthread htable
      | exit exitCode =>
        obtain ⟨task, inner, t, tid, allocator, htask, hres, ht, hdealloc, hthread, htable⟩ :=
          exitCurrentAndRunNext_eq h
        simp only [threadEvents, htask, hres, toList_some, map_cons, map_nil]
        exact .exit (threadOf_eq (currentTask_eq_some htask).2) hres ht hdealloc hthread htable
      | waittid tid =>
        obtain ⟨⟨_, result⟩, hcall, rfl⟩ := map_eq_some_iff.mp h
        obtain ⟨task, inner, t, htask, hlive, ht, hthread, hcases⟩ := sysWaittid_eq hcall
        simp only [threadEvents, htask, hcall, toList_some, map_cons, map_nil]
        rcases hcases with ⟨htable, hnone⟩ | ⟨waited, th, hslot, hth, hcode, htable⟩
        · exact .ask (threadOf_eq (currentTask_eq_some htask).2) hlive ht hnone hthread htable
        · exact .reap ht hslot hth hcode hthread htable
      | _ => simp [Choice.managesThreads, Syscall.managesThreads] at hmanages

theorem ThreadEffect.threadInv {es : List ThreadEvent} (h : ThreadEffect σ σ' es)
    (hinv : ThreadInv σ.threadOf σ.tableOf) : ThreadInv σ'.threadOf σ'.tableOf := by
  cases h with
  | quiet hthread htable => rwa [hthread, htable]
  | fork hthread htable =>
    rw [hthread, htable]
    exact hinv.fork σ.tableOf_length σ.threadOf_length
  | create ht htasks hthread htable =>
    rw [hthread, htable]
    exact hinv.create ht σ.threadOf_length htasks
  | @exit task tid th exitCode t allocator hth hres ht hdealloc hthread htable =>
    have hlive : th.exitCode = none := (hinv.res_iff hth).mp (by simp [hres])
    have hth' : σ.threadOf task = some ⟨th.process, some tid, none⟩ := by
      rw [hth, ← hres, ← hlive]
    rw [hthread, htable]
    exact hinv.exit hth' ht hdealloc
  | ask hth hlive ht hnone hthread htable => rwa [hthread, htable]
  | reap ht hslot hth hcode hthread htable =>
    rw [hthread, htable]
    exact hinv.waittid ht hslot hth (by simp [hcode])

theorem threadInv_boot : ThreadInv boot.threadOf boot.tableOf := by
  have hempty : ThreadInv (fun _ => none) fun _ => none :=
    ⟨nofun, nofun, nofun, nofun⟩
  have hthread : boot.threadOf = update (fun _ => none) 0 (some ⟨0, some 0, none⟩) := by
    funext task
    cases task <;> simp [threadOf, boot, TaskControlBlock.new]
  have htable : boot.tableOf = update (fun _ => none) 0 (some ⟨[some 0], ⟨1, []⟩⟩) := by
    funext process
    cases process <;> simp [tableOf, boot, RecycleAllocator.alloc, RecycleAllocator.new]
  rw [hthread, htable]
  exact hempty.fork rfl rfl

theorem Reachable.threadInv (h : Reachable σ) : ThreadInv σ.threadOf σ.tableOf := by
  induction h with
  | boot => exact threadInv_boot
  | step h hstep ih =>
    obtain ⟨choice, hchosen⟩ := hstep.exists_chosen
    exact hchosen.threadEffect.threadInv ih

/-! ## Exited threads -/

/-- The identifier that was freed last and has not been handed out again does not
belong to an exited thread that is still in the table. -/
def LastFreedWaited (σ : Kernel) (process : Nat) : Prop :=
  ∀ t tid task th, σ.tableOf process = some t → t.allocator.recycled.head? = some tid →
    slot t.tasks tid = some task → σ.threadOf task = some th → th.exitCode = none

/-- The steps in which a thread is created only after the thread that exited last
has been waited for. -/
def Careful (σ : Kernel) (es : List ThreadEvent) (σ' : Kernel) : Prop :=
  Labelled threadEvents σ es σ' ∧
    ∀ process tid, .create process tid ∈ es → LastFreedWaited σ process

/-- Every exited thread nobody waited for is in the table with its exit code. -/
def KeepsExited (σ : Kernel) (history : List ThreadEvent) : Prop :=
  ∀ process tid exitCode, pending history process tid = some exitCode →
    ∃ t task th, σ.tableOf process = some t ∧ slot t.tasks tid = some task ∧
      σ.threadOf task = some th ∧ th.exitCode = some exitCode

variable {history es : List ThreadEvent}

theorem pending_alloc (hinv : ThreadInv σ.threadOf σ.tableOf) (hkeeps : KeepsExited σ history)
    (ht : σ.tableOf process = some t) (hlast : LastFreedWaited σ process) :
    pending history process t.allocator.alloc.1 = none := by
  by_contra hne
  obtain ⟨exitCode, hpending⟩ := ne_none_iff_exists'.mp hne
  obtain ⟨_, task, th, ht', hslot, hth, hcode⟩ := hkeeps _ _ _ hpending
  cases ht.symm.trans ht'
  rcases (alloc_cases (hinv.recycled ht).1 (hinv.recycled ht).2).1 with hhead | heq
  · simp [hlast t _ task th ht hhead hslot hth] at hcode
  · have := (hinv.entry ht hslot).1
    omega

/-- The exit code that `sys_waittid` may not miss. -/
theorem pending_ask (hinv : ThreadInv σ.threadOf σ.tableOf) (hkeeps : KeepsExited σ history)
    (hth : σ.threadOf task = some th) (hlive : th.res.isSome) (ht : σ.tableOf th.process = some t)
    (hnone : th.res = some tid ∨ slot t.tasks tid = none ∨ ∃ waited th',
      slot t.tasks tid = some waited ∧ σ.threadOf waited = some th' ∧ th'.exitCode = none) :
    pending history th.process tid = none := by
  by_contra hne
  obtain ⟨exitCode, hpending⟩ := ne_none_iff_exists'.mp hne
  obtain ⟨_, exited, th', ht', hslot, hth', hcode⟩ := hkeeps _ _ _ hpending
  cases ht.symm.trans ht'
  rcases hnone with hres | hfree | ⟨waited, th'', hslot', hth'', hcode'⟩
  · -- the caller has the entry of its own identifier and has not exited
    obtain ⟨_, ht'', hslot', -⟩ := hinv.live hth hres
    cases ht.symm.trans ht''
    cases hslot.symm.trans hslot'
    cases hth.symm.trans hth'
    simp [(hinv.res_iff hth).mp hlive] at hcode
  · simp [hfree] at hslot
  · cases hslot.symm.trans hslot'
    cases hth'.symm.trans hth''
    simp [hcode'] at hcode

theorem ThreadEffect.threadOf_exited (h : ThreadEffect σ σ' es)
    (hinv : ThreadInv σ.threadOf σ.tableOf) (hth : σ.threadOf task = some th)
    (hcode : th.exitCode = some exitCode) : σ'.threadOf task = some th := by
  have hnew : task ≠ σ.tasks.length := fun heq => by simp [heq, threadOf_length] at hth
  cases h with
  | quiet hthread htable => rwa [hthread]
  | fork hthread htable => rwa [hthread, update_of_ne hnew]
  | create ht' htasks hthread htable => rwa [hthread, update_of_ne hnew]
  | @exit task' tid' th' exitCode' t' allocator hth' hres ht' hdealloc hthread htable =>
    -- the thread that exits has not exited before
    have hne : task ≠ task' := by
      rintro rfl
      cases hth.symm.trans hth'
      simp [(hinv.res_iff hth).mp (by simp [hres])] at hcode
    rwa [hthread, update_of_ne hne]
  | ask hth' hlive ht' hnone hthread htable => rwa [hthread]
  | reap ht' hslot' hth' hcode' hthread htable => rwa [hthread]

/-- An entry stays, unless a creation takes it or its thread is reported. -/
theorem ThreadEffect.slot_kept (h : ThreadEffect σ σ' es) (ht : σ.tableOf process = some t)
    (hslot : slot t.tasks tid = some task) (hcreate : .create process tid ∉ es)
    (hreport : ∀ result, .waittid process tid result ∉ es) :
    ∃ t', σ'.tableOf process = some t' ∧ slot t'.tasks tid = some task := by
  cases h with
  | quiet hthread htable => exact ⟨t, by rwa [htable], hslot⟩
  | fork hthread htable =>
    have hne : process ≠ σ.processes.length := fun heq => by simp [heq, tableOf_length] at ht
    exact ⟨t, by rwa [htable, update_of_ne hne], hslot⟩
  | @create process' t' tasks ht' htasks hthread htable =>
    by_cases hprocess : process = process'
    · subst hprocess
      obtain rfl := Option.some.inj (ht'.symm.trans ht)
      have htid : t'.allocator.alloc.1 ≠ tid := by
        rintro rfl
        exact hcreate mem_cons_self
      exact ⟨_, by rw [htable, update_self], by simp [htasks, htid, hslot]⟩
    · exact ⟨t, by rwa [htable, update_of_ne hprocess], hslot⟩
  | @exit task' tid' th' exitCode' t' allocator hth' hres ht' hdealloc hthread htable =>
    by_cases hprocess : process = th'.process
    · subst hprocess
      obtain rfl := Option.some.inj (ht'.symm.trans ht)
      exact ⟨⟨t'.tasks, allocator⟩, by rw [htable, update_self], hslot⟩
    · exact ⟨t, by rwa [htable, update_of_ne hprocess], hslot⟩
  | ask hth' hlive ht' hnone hthread htable => exact ⟨t, by rwa [htable], hslot⟩
  | @reap process' tid' waited th' t' exitCode' ht' hslot' hth' hcode' hthread htable =>
    by_cases hprocess : process = process'
    · subst hprocess
      obtain rfl := Option.some.inj (ht'.symm.trans ht)
      have htid : tid' ≠ tid := by
        rintro rfl
        exact hreport _ mem_cons_self
      refine ⟨_, by rw [htable, update_self], ?_⟩
      rw [slot_set (lt_length_of_slot hslot'), if_neg htid, hslot]
    · exact ⟨t, by rwa [htable, update_of_ne hprocess], hslot⟩

section

variable (h : ThreadEffect σ σ' es) (hinv : ThreadInv σ.threadOf σ.tableOf)
  (hkeeps : KeepsExited σ history)
include h hinv hkeeps

theorem ThreadEffect.keepsPending (hpending : pending history process tid = some exitCode)
    (hcreate : .create process tid ∉ es) (hreport : ∀ result, .waittid process tid result ∉ es) :
    ∃ t task th, σ'.tableOf process = some t ∧ slot t.tasks tid = some task ∧
      σ'.threadOf task = some th ∧ th.exitCode = some exitCode := by
  obtain ⟨t, task, th, ht, hslot, hth, hcode⟩ := hkeeps process tid exitCode hpending
  obtain ⟨t', ht', hslot'⟩ := h.slot_kept ht hslot hcreate hreport
  exact ⟨t', task, th, ht', hslot', h.threadOf_exited hinv hth hcode, hcode⟩

theorem ThreadEffect.keepsExited
    (hlast : ∀ process tid, .create process tid ∈ es → LastFreedWaited σ process) :
    KeepsExited σ' (history ++ es) := by
  intro process tid exitCode hpending
  have hstays (hold : pending history process tid = some exitCode) :=
    h.keepsPending hinv hkeeps hold
  cases h with
  | quiet hthread htable =>
    rw [append_nil] at hpending
    exact hstays hpending (by simp) (by simp)
  | fork hthread htable =>
    rw [append_nil] at hpending
    exact hstays hpending (by simp) (by simp)
  | @create process' t' tasks ht' htasks hthread htable =>
    simp only [pending_concat, nextPending] at hpending
    have hnone := pending_alloc hinv hkeeps ht' (hlast process' _ mem_cons_self)
    refine hstays hpending (fun hmem => ?_) (by simp)
    simp only [mem_singleton, ThreadEvent.create.injEq] at hmem
    rw [hmem.1, hmem.2, hnone] at hpending
    cases hpending
  | @exit task' tid' th' exitCode' t' allocator hth' hres ht' hdealloc hthread htable =>
    simp only [pending_concat, nextPending] at hpending
    split at hpending
    · next heq =>
      obtain ⟨rfl, rfl⟩ := heq
      cases hpending
      obtain ⟨t, ht, hslot, -⟩ := hinv.live hth' hres
      cases ht'.symm.trans ht
      exact ⟨⟨t'.tasks, allocator⟩, task', _, by rw [htable, update_self], hslot,
        by rw [hthread, update_self], rfl⟩
    · exact hstays hpending (by simp) (by simp)
  | ask hth' hlive ht' hnone hthread htable =>
    simp only [pending_concat, nextPending] at hpending
    split at hpending
    · cases hpending
    · next hne => exact hstays hpending (by simp) (fun _ hmem => hne (by simp_all))
  | reap ht' hslot' hth' hcode' hthread htable =>
    simp only [pending_concat, nextPending] at hpending
    split at hpending
    · cases hpending
    · next hne => exact hstays hpending (by simp) (fun _ hmem => hne (by simp_all))

theorem ThreadEffect.always
    (hlast : ∀ process tid, .create process tid ∈ es → LastFreedWaited σ process)
    (hfresh : FreshTids history) (hreports : ReportsExitCodes history) :
    FreshTids (history ++ es) ∧ ReportsExitCodes (history ++ es) := by
  cases h with
  | quiet | fork =>
    rw [append_nil]
    exact ⟨hfresh, hreports⟩
  | create ht =>
    refine ⟨always_concat.mpr ⟨hfresh, ?_⟩, always_concat.mpr ⟨hreports, nofun⟩⟩
    intro process tid heq
    cases heq
    exact pending_alloc hinv hkeeps ht (hlast _ _ mem_cons_self)
  | exit => exact ⟨always_concat.mpr ⟨hfresh, nofun⟩, always_concat.mpr ⟨hreports, nofun⟩⟩
  | ask hth hlive ht hnone =>
    refine ⟨always_concat.mpr ⟨hfresh, nofun⟩, always_concat.mpr ⟨hreports, ?_⟩⟩
    intro process tid result exitCode heq hpending
    cases heq
    simp [pending_ask hinv hkeeps hth hlive ht hnone] at hpending
  | reap ht hslot hth hcode =>
    refine ⟨always_concat.mpr ⟨hfresh, nofun⟩, always_concat.mpr ⟨hreports, ?_⟩⟩
    intro process tid result exitCode heq hpending
    cases heq
    obtain ⟨_, _, _, ht', hslot', hth', hcode'⟩ := hkeeps _ _ _ hpending
    cases ht.symm.trans ht'
    cases hslot.symm.trans hslot'
    cases hth.symm.trans hth'
    exact Option.some.inj (hcode.symm.trans hcode')

end

/-- In every run in which threads are created only after the thread that exited
last has been waited for: no identifier of an exited thread nobody waited for is
handed out, its entry stays in the table, and the first `sys_waittid` returns its
exit code. -/
theorem exited_threads_keep_entries (h : Run (· = boot) Careful history σ) :
    FreshTids history ∧ ReportsExitCodes history ∧ KeepsExited σ history := by
  suffices hall : Reachable σ ∧ FreshTids history ∧ ReportsExitCodes history ∧
      KeepsExited σ history from hall.2
  induction h with
  | start h =>
    subst h
    exact ⟨.boot, always_nil, always_nil, fun _ _ _ hpending => by simp [pending] at hpending⟩
  | step h hstep ih =>
    obtain ⟨hreachable, hfresh, hreports, hkeeps⟩ := ih
    obtain ⟨⟨choice, hchosen, rfl⟩, hlast⟩ := hstep
    have heffect := hchosen.threadEffect
    have hinv := hreachable.threadInv
    obtain ⟨hfresh', hreports'⟩ := heffect.always hinv hkeeps hlast hfresh hreports
    exact ⟨.step hreachable hchosen.step, hfresh', hreports',
      heffect.keepsExited hinv hkeeps hlast⟩

theorem run_careful (choice : Choice) (es : List ThreadEvent)
    (h : Run (· = boot) Careful history σ) (hperform : σ.perform choice = some σ')
    (hevents : σ.threadEvents choice σ' = es)
    (hlast : ∀ process tid, .create process tid ∈ es → LastFreedWaited σ process) :
    Run (· = boot) Careful (history ++ es) σ' :=
  .step h ⟨⟨choice, chosen_of_perform hperform, hevents.symm⟩, hlast⟩

/-- A thread is created, exits with code 7 and is waited for. -/
theorem exited_threads_keep_entries_join : ∃ σ,
    Run (· = boot) Careful [.create 0 1, .exit 0 1 7, .waittid 0 1 7] σ ∧
      FreshTids [.create 0 1, .exit 0 1 7, .waittid 0 1 7] := by
  have hboot : Run (· = boot) Careful [] boot := .start rfl
  have hmain := run_careful .runTasks [] hboot rfl rfl (by simp)
  have hcreate := run_careful (.syscall .threadCreate) [.create 0 1] hmain rfl rfl (by
    intro process tid hmem
    obtain ⟨rfl, -⟩ : process = 0 ∧ tid = 1 := by simpa using hmem
    -- no identifier has been freed yet
    intro t tid task th ht hhead
    cases ht
    simp [RecycleAllocator.alloc, RecycleAllocator.new] at hhead)
  have hyield := run_careful (.syscall .yield) [] hcreate rfl rfl (by simp)
  have hnext := run_careful .runTasks [] hyield rfl rfl (by simp)
  have hexit := run_careful (.syscall (.exit 7)) [.exit 0 1 7] hnext rfl rfl (by simp)
  have hback := run_careful .runTasks [] hexit rfl rfl (by simp)
  have hwait := run_careful (.syscall (.waittid 1)) [.waittid 0 1 7] hback rfl rfl (by simp)
  exact ⟨_, hwait, (exited_threads_keep_entries hwait).1⟩

/-- Thread 1 exits with code 7, and before it is waited for another thread gets its
identifier: the exit code is lost. -/
theorem tid_of_exited_thread_reused : ∃ history σ,
    Run (· = boot) (Labelled threadEvents) history σ ∧ ¬FreshTids history ∧
      ¬ReportsExitCodes history := by
  obtain ⟨σ, hperform⟩ : ∃ σ, boot.performAll threadEvents [.runTasks, .syscall .threadCreate,
      .syscall .yield, .runTasks, .syscall (.exit 7), .runTasks, .syscall .threadCreate,
      .syscall (.waittid 1)] =
        some ([.create 0 1, .exit 0 1 7, .create 0 1, .waittid 0 1 (-2)], σ) := ⟨_, rfl⟩
  have hboot : Run (· = boot) (Labelled threadEvents) [] boot := .start rfl
  refine ⟨_, σ, run_of_performAll hboot _ hperform, fun hfresh => ?_, fun hreports => ?_⟩
  · have hnone := hfresh [.create 0 1, .exit 0 1 7] (.create 0 1) _ rfl 0 1 rfl
    simp [pending, nextPending] at hnone
  · have hcode := hreports [.create 0 1, .exit 0 1 7, .create 0 1] (.waittid 0 1 (-2)) _ rfl
      0 1 (-2) 7 rfl rfl
    simp at hcode

end Kernel

end RCore.Task
