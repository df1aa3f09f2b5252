import RCore.Task.ProcessRuns
import RCore.Task.ThreadIds

/-!
# The exit of a main thread

`exit_current_and_run_next` with the cells that are borrowed on its way.  The main
thread drops the `TaskUserRes` of every thread of its process while the process is
borrowed, and dropping one borrows the process again: the path completes only if no
other thread still has a `TaskUserRes`.
-/

namespace RCore.Task

open List Kernel

/-- The `UPSafeCell`s on the path. -/
inductive Cell where
  | processor
  | pid2pcb
  | frameAllocator
  | task (task : Nat)
  | process (process : Nat)
  deriving DecidableEq, Repr

inductive ExitPanic where
  /-- an `unwrap` of `None` -/
  | unwrapNone
  /-- `exclusive_access` of a cell that is borrowed -/
  | alreadyBorrowed (cell : Cell)
  /-- `remove_from_pid2process`, or the drop of a `PidHandle` -/
  | tree (panic : Panic)
  /-- an assertion of `dealloc_tid` -/
  | notAllocated
  deriving DecidableEq

/-- `dropped` lists the threads whose `TaskUserRes` has been dropped. -/
structure ExitState where
  kernel : Kernel
  tree : ProcessTree
  borrowed : List Cell
  dropped : List Nat

namespace ExitState

/-- Run `body` while the cell is borrowed. -/
def withCell (cell : Cell) (body : ExitState → Except ExitPanic ExitState) (s : ExitState) :
    Except ExitPanic ExitState :=
  if cell ∈ s.borrowed then .error (.alreadyBorrowed cell)
  else
    match body { s with borrowed := cell :: s.borrowed } with
    | .error panic => .error panic
    | .ok s => .ok { s with borrowed := s.borrowed.erase cell }

/-! ## The drop of a `TaskUserRes` -/

def deallocTid (process tid : Nat) : ExitState → Except ExitPanic ExitState :=
  withCell (.process process) fun s =>
    match s.kernel.processes[process]? with
    | none => .error .unwrapNone
    | some inner =>
        match inner.taskResAllocator.dealloc tid with
        | none => .error .notAllocated
        | some allocator =>
            .ok { s with
              kernel := s.kernel.updateProcess process
                fun inner => { inner with taskResAllocator := allocator } }

/-- The areas of the user stack and of the trap context leave the memory set, and
their frames go back to the allocator. -/
def deallocUserRes (process : Nat) : ExitState → Except ExitPanic ExitState :=
  withCell (.process process) fun s => do
    let s ← withCell .frameAllocator .ok s
    withCell .frameAllocator .ok s

/-- `task_inner.res = None`: the old value is dropped. -/
def clearRes (task : Nat) (s : ExitState) : Except ExitPanic ExitState :=
  match s.kernel.tasks[task]? with
  | none => .error .unwrapNone
  | some inner =>
      match inner.res with
      | none => .ok s
      | some tid => do
          let s := { s with
            kernel := s.kernel.updateTask task fun inner => { inner with res := none }
            dropped := s.dropped ++ [task] }
          let s ← deallocTid inner.process tid s
          deallocUserRes inner.process s

/-! ## The exit -/

/-- Move the children under the initial process. -/
def adoptAll (children : List Nat) (s : ExitState) : Except ExitPanic ExitState :=
  children.foldlM (fun s child =>
    withCell (.process child) (fun s => .ok { s with tree := s.tree.adopt child }) s) s

/-- Drop the `TaskUserRes` of every thread in the table. -/
def clearAll (tasks : List (Option Nat)) (s : ExitState) : Except ExitPanic ExitState :=
  tasks.foldlM (fun s entry =>
    match entry with
    | none => .ok s
    | some task => withCell (.task task) (clearRes task) s) s

/-- What the main thread does while it has its process borrowed. -/
def closeProcess (process : Nat) (exitCode : Int) (children : List Nat)
    (tasks : List (Option Nat)) (s : ExitState) : Except ExitPanic ExitState := do
  let s := { s with
    kernel := s.kernel.updateProcess process
      fun inner => { inner with isZombie := true, exitCode := exitCode }
    tree := s.tree.update process
      fun pcb => { pcb with isZombie := true, exitCode := exitCode } }
  let s ← withCell (.process initproc) (adoptAll children) s
  let s ← clearAll tasks s
  let s := { s with tree := s.tree.update process fun pcb => { pcb with children := [] } }
  -- `recycle_data_pages` drops the frames of the other areas
  withCell .frameAllocator .ok s

/-- The part of the exit for a main thread. -/
def exitProcess (process : Nat) (exitCode : Int) (s : ExitState) :
    Except ExitPanic ExitState :=
  match s.tree.get process, s.kernel.processes[process]? with
  | some pcb, some inner => do
      let s ← withCell .pid2pcb (fun s =>
        match s.tree.removeFromPid2process pcb.pid with
        | .error panic => .error (.tree panic)
        | .ok tree => .ok { s with tree := tree }) s
      withCell (.process process) (closeProcess process exitCode pcb.children inner.tasks) s
  | _, _ => .error .unwrapNone

/-- The reference of the running code to the process is dropped at the end; then
`schedule` borrows the processor for the idle context. -/
def exitCurrentAndRunNext (exitCode : Int) (s : ExitState) : Except ExitPanic ExitState :=
  match s.kernel.currentTask with
  | none => .error .unwrapNone
  | some (task, inner) =>
      match inner.res with
      | none => .error .unwrapNone
      | some tid => do
          let s ← withCell .processor (fun s =>
            .ok { s with kernel := { s.kernel with current := none } }) s
          let s ← withCell (.task task) (fun s =>
            clearRes task { s with
              kernel := s.kernel.updateTask task
                fun inner => { inner with exitCode := some exitCode } }) s
          let s ← if tid = 0 then exitProcess inner.process exitCode s else .ok s
          match s.tree.release inner.process with
          | .error panic => .error (.tree panic)
          | .ok tree => withCell .processor .ok { s with tree := tree }

/-! ## How the parts end -/

section Cells

variable {s s' : ExitState} {cell : Cell} {body : ExitState → Except ExitPanic ExitState}
  {task process tid : Nat} {inner : TaskControlBlock}

@[simp] theorem ok_bind {f : ExitState → Except ExitPanic ExitState} :
    (Except.ok s >>= f) = f s :=
  rfl

@[simp] theorem error_bind {panic : ExitPanic} {f : ExitState → Except ExitPanic ExitState} :
    (Except.error panic >>= f) = .error panic :=
  rfl

theorem withCell_of_ok (h : cell ∉ s.borrowed)
    (hbody : body { s with borrowed := cell :: s.borrowed } = .ok s') :
    withCell cell body s = .ok { s' with borrowed := s'.borrowed.erase cell } := by
  rw [withCell, if_neg h, hbody]

theorem withCell_of_error {panic : ExitPanic} (h : cell ∉ s.borrowed)
    (hbody : body { s with borrowed := cell :: s.borrowed } = .error panic) :
    withCell cell body s = .error panic := by
  rw [withCell, if_neg h, hbody]

theorem withCell_ok (h : cell ∉ s.borrowed) : withCell cell .ok s = .ok s := by
  rw [withCell_of_ok h rfl, erase_cons_head]

theorem clearRes_of_none (hinner : s.kernel.tasks[task]? = some inner) (hres : inner.res = none) :
    clearRes task s = .ok s := by
  simp only [clearRes, hinner, hres]

/-- Dropping a `TaskUserRes` while its process is borrowed panics. -/
theorem clearRes_of_borrowed (hinner : s.kernel.tasks[task]? = some inner)
    (hres : inner.res = some tid) (hborrowed : .process inner.process ∈ s.borrowed) :
    clearRes task s = .error (.alreadyBorrowed (.process inner.process)) := by
  simp only [clearRes, hinner, hres]
  rw [deallocTid, withCell, if_pos hborrowed]
  rfl

theorem deallocUserRes_eq (hprocess : .process process ∉ s.borrowed)
    (hframes : .frameAllocator ∉ s.borrowed) : deallocUserRes process s = .ok s := by
  have hbody : Cell.frameAllocator ∉ Cell.process process :: s.borrowed := by simpa using hframes
  rw [deallocUserRes, withCell, if_neg hprocess, withCell_ok hbody, ok_bind, withCell_ok hbody]
  simp only [erase_cons_head]

theorem clearRes_of_some {p : Process} {allocator : RecycleAllocator}
    (hinner : s.kernel.tasks[task]? = some inner) (hres : inner.res = some tid)
    (hp : s.kernel.processes[inner.process]? = some p)
    (hdealloc : p.taskResAllocator.dealloc tid = some allocator)
    (hprocess : .process inner.process ∉ s.borrowed) (hframes : .frameAllocator ∉ s.borrowed) :
    clearRes task s = .ok { s with
      kernel := (s.kernel.updateTask task fun inner => { inner with res := none }).updateProcess
        inner.process fun p => { p with taskResAllocator := allocator }
      dropped := s.dropped ++ [task] } := by
  have hp' : (s.kernel.updateTask task fun inner => { inner with res := none }).processes[
      inner.process]? = some p := hp
  simp only [clearRes, hinner, hres]
  rw [deallocTid, withCell, if_neg hprocess]
  simp only [hp', hdealloc]
  rw [erase_cons_head]
  exact deallocUserRes_eq hprocess hframes

theorem adoptAll_eq (children : List Nat) (h : ∀ child ∈ children, .process child ∉ s.borrowed) :
    adoptAll children s = .ok { s with tree := children.foldl ProcessTree.adopt s.tree } := by
  induction children generalizing s with
  | nil => rfl
  | cons child children ih =>
    have hhead := h child mem_cons_self
    rw [adoptAll, foldlM_cons, withCell, if_neg hhead]
    simp only [erase_cons_head]
    exact ih fun other hother => h other (mem_cons_of_mem _ hother)

/-- The threads of the table can be borrowed, and belong to the process. -/
def TableReady (s : ExitState) (process : Nat) (tasks : List (Option Nat)) : Prop :=
  ∀ task, some task ∈ tasks → .task task ∉ s.borrowed ∧
    ∃ inner, s.kernel.tasks[task]? = some inner ∧ inner.process = process

theorem clearAll_eq {tasks : List (Option Nat)} (hready : s.TableReady process tasks)
    (hnone : ∀ task inner, some task ∈ tasks → s.kernel.tasks[task]? = some inner →
      inner.res = none) : clearAll tasks s = .ok s := by
  induction tasks with
  | nil => rfl
  | cons entry tasks ih =>
    have htail := ih (fun task hmem => hready task (mem_cons_of_mem _ hmem))
      fun task inner hmem => hnone task inner (mem_cons_of_mem _ hmem)
    rw [clearAll, foldlM_cons]
    cases entry with
    | none => exact htail
    | some task =>
      obtain ⟨hfree, inner, hinner, -⟩ := hready task mem_cons_self
      have hres := hnone task inner mem_cons_self hinner
      simp only
      rw [withCell_of_ok hfree (clearRes_of_none hinner hres), erase_cons_head]
      exact htail

/-- One thread that still has its `TaskUserRes` makes the loop panic: the process is
borrowed around it. -/
theorem clearAll_of_res {tasks : List (Option Nat)} (hready : s.TableReady process tasks)
    (hborrowed : .process process ∈ s.borrowed) (hmem : some task ∈ tasks)
    (hinner : s.kernel.tasks[task]? = some inner) (hres : inner.res = some tid) :
    clearAll tasks s = .error (.alreadyBorrowed (.process process)) := by
  induction tasks with
  | nil => simp at hmem
  | cons entry tasks ih =>
    have htail : some task ∈ tasks → clearAll tasks s = _ :=
      ih fun other hother => hready other (mem_cons_of_mem _ hother)
    rw [clearAll, foldlM_cons]
    cases entry with
    | none => exact htail (by simpa using hmem)
    | some first =>
      obtain ⟨hfree, firstInner, hfirst, rfl⟩ := hready first mem_cons_self
      simp only
      cases hfirstRes : firstInner.res with
      | none =>
        have hne : task ≠ first := by
          rintro rfl
          rw [hinner, Option.some.injEq] at hfirst
          simp [hfirst, hfirstRes] at hres
        rw [withCell_of_ok hfree (clearRes_of_none hfirst hfirstRes), erase_cons_head]
        exact htail (by simpa [hne] using hmem)
      | some firstTid =>
        rw [withCell_of_error hfree (clearRes_of_borrowed hfirst hfirstRes (mem_cons_of_mem _ hborrowed))]
        rfl

end Cells

/-! ## How the exit ends -/

/-- The state when the children of the process have been adopted. -/
def adopted (s : ExitState) (i : Nat) (exitCode : Int) (children : List Nat) : ExitState :=
  { s with
    kernel := s.kernel.updateProcess i
      fun inner => { inner with isZombie := true, exitCode := exitCode }
    tree := children.foldl ProcessTree.adopt (s.tree.update i
      fun pcb => { pcb with isZombie := true, exitCode := exitCode }) }

section Close

variable {s : ExitState} {i : Nat} {children : List Nat} {tasks : List (Option Nat)}
  {exitCode : Int} (hborrowed : s.borrowed = [.process i])
include hborrowed

theorem closeProcess_initproc (hi : i = initproc) :
    closeProcess i exitCode children tasks s = .error (.alreadyBorrowed (.process initproc)) := by
  subst hi
  rw [closeProcess, withCell, if_pos (hborrowed ▸ mem_singleton_self _)]
  rfl

variable (hi : i ≠ initproc) (hself : i ∉ children) (hinit : initproc ∉ children)
include hi hself hinit

/-- The children of another process are adopted; the process is still borrowed when
its threads drop their `TaskUserRes`s. -/
theorem closeProcess_eq :
    closeProcess i exitCode children tasks s = (do
      let s ← clearAll tasks (s.adopted i exitCode children)
      withCell .frameAllocator .ok
        { s with tree := s.tree.update i fun pcb => { pcb with children := [] } }) := by
  have hborrow : Cell.process initproc ∉ s.borrowed := by
    simpa [hborrowed] using Ne.symm hi
  have hcells : ∀ child ∈ children, Cell.process child ∉ Cell.process initproc :: s.borrowed := by
    intro child hchild hmem
    simp only [hborrowed, mem_cons, Cell.process.injEq, not_mem_nil, or_false] at hmem
    rcases hmem with rfl | rfl
    · exact hinit hchild
    · exact hself hchild
  rw [closeProcess, withCell, if_neg hborrow]
  simp only
  rw [adoptAll_eq _ hcells]
  simp only [erase_cons_head, ok_bind, adopted]

theorem closeProcess_ok (hready : s.TableReady i tasks)
    (hnone : ∀ task inner, some task ∈ tasks → s.kernel.tasks[task]? = some inner →
      inner.res = none) :
    closeProcess i exitCode children tasks s = .ok { s.adopted i exitCode children with
      tree := (s.adopted i exitCode children).tree.update i
        fun pcb => { pcb with children := [] } } := by
  have hready' : (s.adopted i exitCode children).TableReady i tasks := hready
  rw [closeProcess_eq hborrowed hi hself hinit, clearAll_eq hready' hnone, ok_bind]
  exact withCell_ok (by simp [adopted, hborrowed])

/-- The exit panics if another thread still has its `TaskUserRes`. -/
theorem closeProcess_of_res (hready : s.TableReady i tasks) {task tid : Nat}
    {inner : TaskControlBlock} (hmem : some task ∈ tasks)
    (hinner : s.kernel.tasks[task]? = some inner) (hres : inner.res = some tid) :
    closeProcess i exitCode children tasks s = .error (.alreadyBorrowed (.process i)) := by
  have hready' : (s.adopted i exitCode children).TableReady i tasks := hready
  have hmem' : Cell.process i ∈ (s.adopted i exitCode children).borrowed :=
    hborrowed ▸ mem_singleton_self _
  rw [closeProcess_eq hborrowed hi hself hinit,
    clearAll_of_res hready' hmem' hmem hinner hres, error_bind]

end Close

section Exit

variable {i : Nat} {pcb : ProcessControlBlock} {p : Process} {exitCode : Int}

theorem exitProcess_eq {s : ExitState} {tree : ProcessTree} (hborrowed : s.borrowed = [])
    (hpcb : s.tree.get i = some pcb) (hp : s.kernel.processes[i]? = some p)
    (hremove : s.tree.removeFromPid2process pcb.pid = .ok tree) :
    exitProcess i exitCode s =
      withCell (.process i) (closeProcess i exitCode pcb.children p.tasks)
        { s with tree := tree } := by
  simp only [exitProcess, hpcb, hp]
  rw [withCell, if_neg (by simp [hborrowed])]
  simp only [hremove, erase_cons_head, ok_bind]

/-- The kernel when the current thread has dropped its own `TaskUserRes`. -/
def left (κ : Kernel) (task : Nat) (inner : TaskControlBlock) (allocator : RecycleAllocator)
    (exitCode : Int) : Kernel :=
  ({ κ with current := none }.updateTask task
    fun inner => { inner with exitCode := some exitCode, res := none }).updateProcess
      inner.process fun process => { process with taskResAllocator := allocator }

variable {κ : Kernel} {tree : ProcessTree} {task tid : Nat} {inner : TaskControlBlock}
  {allocator : RecycleAllocator}

theorem left_self {th : TaskControlBlock} (hth : κ.tasks[task]? = some th) :
    (left κ task inner allocator exitCode).tasks[task]? =
      some { th with exitCode := some exitCode, res := none } := by
  simp [left, updateProcess, updateTask, hth]

theorem left_of_ne {other : Nat} (hne : task ≠ other) :
    (left κ task inner allocator exitCode).tasks[other]? = κ.tasks[other]? := by
  simp [left, updateProcess, updateTask, hne]

theorem exitCurrentAndRunNext_of_main (hcur : κ.currentTask = some (task, inner))
    (hres : inner.res = some 0) (hp : κ.processes[inner.process]? = some p)
    (hdealloc : p.taskResAllocator.dealloc 0 = some allocator) :
    exitCurrentAndRunNext exitCode ⟨κ, tree, [], []⟩ = (do
      let s ← exitProcess inner.process exitCode
        ⟨left κ task inner allocator exitCode, tree, [], [task]⟩
      match s.tree.release inner.process with
      | .error panic => .error (.tree panic)
      | .ok tree => withCell .processor .ok { s with tree := tree }) := by
  have hinner := (currentTask_eq_some hcur).2
  have htake : withCell .processor (fun s =>
      .ok { s with kernel := { s.kernel with current := none } }) ⟨κ, tree, [], []⟩ =
        .ok ⟨{ κ with current := none }, tree, [], []⟩ := rfl
  have hinner' : ({ κ with current := none }.updateTask task
      fun inner => { inner with exitCode := some exitCode }).tasks[task]? =
        some { inner with exitCode := some exitCode } := by
    simp [updateTask, hinner]
  have hres' : ({ inner with exitCode := some exitCode } : TaskControlBlock).res = some 0 := hres
  have hclear := clearRes_of_some (s := ⟨{ κ with current := none }.updateTask task
      fun inner => { inner with exitCode := some exitCode }, tree, [.task task], []⟩)
    hinner' hres' hp hdealloc (by simp) (by simp)
  have hkernel : (({ κ with current := none }.updateTask task
      fun inner => { inner with exitCode := some exitCode }).updateTask task
        fun inner => { inner with res := none }).updateProcess inner.process
          (fun process => { process with taskResAllocator := allocator }) =
        left κ task inner allocator exitCode := by
    simp only [left, updateTask, modify_modify_eq]
    rfl
  rw [hkernel] at hclear
  simp only [exitCurrentAndRunNext, hcur, hres, htake, ok_bind]
  rw [withCell, if_neg not_mem_nil]
  simp only [hclear, ok_bind, erase_cons_head, if_true]
  rfl

end Exit

end ExitState

namespace Kernel

variable {κ κ' : Kernel} {task : Nat} {inner : TaskControlBlock}

/-- A thread without a `TaskUserRes` has exited, so no queue holds it. -/
theorem Reachable.notMem_of_res (h : Reachable κ) (hinner : κ.tasks[task]? = some inner)
    (hres : inner.res = none) : ∀ queue ∈ κ.containers, task ∉ queue := by
  refine h.placed.notMem_of_not_live ?_
  have hexited : inner.exitCode ≠ none := by
    intro hnone
    simpa [hres] using (h.threadInv.res_iff (threadOf_eq hinner)).mpr hnone
  rw [live, hinner, Option.any_some]
  simpa [Option.isSome_iff_ne_none] using hexited

theorem Reachable.res_of_current (h : Reachable κ) (hcur : κ.currentTask = some (task, inner)) :
    inner.res ≠ none := by
  obtain ⟨hcurrent, hinner⟩ := currentTask_eq_some hcur
  intro hres
  refine h.notMem_of_res hinner hres κ.current.toList ?_ (by simp [hcurrent])
  exact mem_cons_self

theorem Reachable.trans (h : Reachable κ) (hsteps : Relation.ReflTransGen Step κ κ') :
    Reachable κ' := by
  induction hsteps with
  | refl => exact h
  | tail _ hstep ih => exact ih.step hstep

theorem Reachable.exists_process (h : Reachable κ) (hinner : κ.tasks[task]? = some inner)
    {tid : Nat} (hres : inner.res = some tid) :
    ∃ p allocator, κ.processes[inner.process]? = some p ∧ some task ∈ p.tasks ∧
      p.taskResAllocator.dealloc tid = some allocator := by
  obtain ⟨t, ht, hslot, hfresh⟩ := h.threadInv.live (threadOf_eq hinner) hres
  obtain ⟨p, hp, rfl⟩ := Option.map_eq_some_iff.mp ht
  have htid := (h.threadInv.entry ht hslot).1
  exact ⟨p, _, hp, mem_of_getElem? (Option.join_eq_some_iff.mp hslot), if_pos ⟨htid, hfresh⟩⟩

theorem Reachable.process_of_mem (h : Reachable κ) {i : Nat} {p : Process}
    (hp : κ.processes[i]? = some p) (hmem : some task ∈ p.tasks) :
    ∃ inner, κ.tasks[task]? = some inner ∧ inner.process = i := by
  obtain ⟨tid, htid⟩ := getElem?_of_mem hmem
  have ht : κ.tableOf i = some ⟨p.tasks, p.taskResAllocator⟩ := by rw [tableOf, hp]; rfl
  have hslot : slot p.tasks tid = some task := by rw [slot, htid]; rfl
  obtain ⟨-, th, hth, hprocess, -⟩ := h.threadInv.entry ht hslot
  obtain ⟨inner, hinner, rfl⟩ := Option.map_eq_some_iff.mp hth
  exact ⟨inner, hinner, hprocess⟩

end Kernel

/-- The exit of the main thread of a process as it is meant to be: it completes, so no
cell is borrowed twice, and leaves none borrowed; every `TaskUserRes` of the process
that is still there is dropped once; no thread of the process keeps one or is ready;
and no thread without one gets the processor afterwards. -/
def ExitsCleanly (κ : Kernel) (tree : ProcessTree) (process : Nat) (exitCode : Int) : Prop :=
  ∃ s, ExitState.exitCurrentAndRunNext exitCode ⟨κ, tree, [], []⟩ = .ok s ∧ s.borrowed = [] ∧
    (∀ task inner, κ.tasks[task]? = some inner → inner.process = process →
      s.dropped.count task = if inner.res.isSome then 1 else 0) ∧
    (∀ task inner, s.kernel.tasks[task]? = some inner → inner.process = process →
      inner.res = none ∧ task ∉ s.kernel.readyQueue) ∧
    ∀ κ', Relation.ReflTransGen Kernel.Step s.kernel κ' →
      ∀ task inner, κ'.currentTask = some (task, inner) → inner.res ≠ none

/-- Every thread of the process other than `task` has dropped its `TaskUserRes`. -/
def OthersLeft (κ : Kernel) (process task : Nat) : Prop :=
  ∀ other inner, κ.tasks[other]? = some inner → inner.process = process → other ≠ task →
    inner.res = none

section MainExit

variable {κ : Kernel} {tree : ProcessTree} {task : Nat} {inner : TaskControlBlock}
  {pcb : ProcessControlBlock} (hκ : κ.Reachable) (htree : tree.Inv)
  (hcur : κ.currentTask = some (task, inner)) (hmain : inner.res = some 0)
  (hlive : tree.Live inner.process pcb) (exitCode : Int)
include hκ htree hcur hmain hlive

theorem exists_closeProcess :
    ∃ p allocator tree₁, κ.processes[inner.process]? = some p ∧ some task ∈ p.tasks ∧
      p.taskResAllocator.dealloc 0 = some allocator ∧
      tree.removeFromPid2process pcb.pid = .ok tree₁ ∧
      ExitState.exitCurrentAndRunNext exitCode ⟨κ, tree, [], []⟩ = (do
        let s ← ExitState.withCell (.process inner.process)
          (ExitState.closeProcess inner.process exitCode pcb.children p.tasks)
          ⟨ExitState.left κ task inner allocator exitCode, tree₁, [], [task]⟩
        match s.tree.release inner.process with
        | .error panic => .error (.tree panic)
        | .ok tree => ExitState.withCell .processor .ok { s with tree := tree }) ∧
      ExitState.TableReady ⟨ExitState.left κ task inner allocator exitCode, tree₁,
        [.process inner.process], [task]⟩ inner.process p.tasks := by
  have hinner := (currentTask_eq_some hcur).2
  obtain ⟨p, allocator, hp, hmem, hdealloc⟩ := hκ.exists_process hinner hmain
  have hremove : tree.removeFromPid2process pcb.pid =
      .ok { tree with pid2pcb := tree.pid2pcb.filter (·.1 != pcb.pid) } := by
    rw [ProcessTree.removeFromPid2process,
      htree.pid2process_eq_some.mpr ⟨pcb, hlive.1, hlive.2, rfl⟩]
  have hp' : (ExitState.left κ task inner allocator exitCode).processes[inner.process]? =
      some { p with taskResAllocator := allocator } := by
    simp [ExitState.left, updateProcess, updateTask, hp]
  refine ⟨p, allocator, _, hp, hmem, hdealloc, hremove, ?_, fun other hother => ⟨by simp, ?_⟩⟩
  · rw [ExitState.exitCurrentAndRunNext_of_main hcur hmain hp hdealloc,
      ExitState.exitProcess_eq rfl hlive.1 hp' hremove]
  · obtain ⟨th, hth, hprocess⟩ := hκ.process_of_mem hp hother
    by_cases heq : task = other
    · subst heq
      exact ⟨_, ExitState.left_self hth, hprocess⟩
    · exact ⟨th, (ExitState.left_of_ne heq).trans hth, hprocess⟩

theorem exit_of_initproc (hinit : inner.process = initproc) :
    ExitState.exitCurrentAndRunNext exitCode ⟨κ, tree, [], []⟩ =
      .error (.alreadyBorrowed (.process initproc)) := by
  obtain ⟨p, allocator, tree₁, -, -, -, -, hexit, -⟩ :=
    exists_closeProcess hκ htree hcur hmain hlive exitCode
  rw [hexit, ExitState.withCell_of_error not_mem_nil (ExitState.closeProcess_initproc rfl hinit)]
  rfl

theorem exit_of_other (hinit : inner.process ≠ initproc) {other tid : Nat}
    {otherInner : TaskControlBlock} (hother : κ.tasks[other]? = some otherInner)
    (hprocess : otherInner.process = inner.process) (hne : other ≠ task)
    (hres : otherInner.res = some tid) :
    ExitState.exitCurrentAndRunNext exitCode ⟨κ, tree, [], []⟩ =
      .error (.alreadyBorrowed (.process inner.process)) := by
  obtain ⟨p, allocator, tree₁, hp, -, -, -, hexit, hready⟩ :=
    exists_closeProcess hκ htree hcur hmain hlive exitCode
  obtain ⟨hself, hnot⟩ := htree.notMem_children hlive.1
  obtain ⟨p', -, hp', hmem, -⟩ := hκ.exists_process hother hres
  rw [hprocess, hp, Option.some.injEq] at hp'
  subst hp'
  have hother' : (ExitState.left κ task inner allocator exitCode).tasks[other]? =
      some otherInner :=
    (ExitState.left_of_ne (Ne.symm hne)).trans hother
  rw [hexit, ExitState.withCell_of_error not_mem_nil
    (ExitState.closeProcess_of_res rfl hinit hself hnot hready hmem hother' hres)]
  rfl

/-- Otherwise the exit completes, as `Kernel.exitCurrentAndRunNext` and
`ProcessTree.exitCurrentAndRunNext` have it. -/
theorem exit_of_others_left (hinit : inner.process ≠ initproc)
    (hothers : OthersLeft κ inner.process task) :
    ∃ s, ExitState.exitCurrentAndRunNext exitCode ⟨κ, tree, [], []⟩ = .ok s ∧
      s.borrowed = [] ∧ s.dropped = [task] ∧
      κ.exitCurrentAndRunNext exitCode = some s.kernel ∧
      tree.exitCurrentAndRunNext inner.process exitCode = .ok s.tree := by
  obtain ⟨p, allocator, tree₁, hp, -, hdealloc, hremove, hexit, hready⟩ :=
    exists_closeProcess hκ htree hcur hmain hlive exitCode
  obtain ⟨hself, hnot⟩ := htree.notMem_children hlive.1
  have hnone : ∀ other th, some other ∈ p.tasks →
      (ExitState.left κ task inner allocator exitCode).tasks[other]? = some th →
        th.res = none := by
    intro other th hmem hth
    obtain ⟨old, hold, hprocess⟩ := hκ.process_of_mem hp hmem
    by_cases heq : task = other
    · subst heq
      rw [ExitState.left_self hold, Option.some.injEq] at hth
      rw [← hth]
    · rw [ExitState.left_of_ne heq] at hth
      obtain rfl := Option.some.inj (hold.symm.trans hth)
      exact hothers other old hold hprocess (Ne.symm heq)
  obtain ⟨tree', htree', -⟩ :=
    ProcessTree.exitCurrentAndRunNext_eq htree hlive.1 hlive.2 hinit exitCode
  have hrelease : ((pcb.children.foldl ProcessTree.adopt (tree₁.update inner.process
      fun pcb => { pcb with isZombie := true, exitCode := exitCode })).update inner.process
        fun pcb => { pcb with children := [] }).release inner.process = .ok tree' := by
    rw [ProcessTree.exitCurrentAndRunNext, hlive.1] at htree'
    simp only [hremove] at htree'
    rwa [if_neg (by simp [hinit, hself, hnot])] at htree'
  have hholds : (ExitState.left κ task inner allocator exitCode).holdsRes p = false := by
    rw [holdsRes, any_eq_false]
    intro entry hentry
    cases entry with
    | none => simp
    | some other =>
      cases hth : (ExitState.left κ task inner allocator exitCode).tasks[other]? with
      | none => simp [hth]
      | some th => simp [hth, hnone other th hentry hth]
  refine ⟨⟨(ExitState.left κ task inner allocator exitCode).updateProcess inner.process
    fun p => { p with isZombie := true, exitCode := exitCode }, tree', [], [task]⟩, ?_, rfl, rfl,
    ?_, htree'⟩
  · rw [hexit, ExitState.withCell_of_ok not_mem_nil
      (ExitState.closeProcess_ok rfl hinit hself hnot hready hnone), ExitState.ok_bind]
    simp only [ExitState.adopted, hrelease, erase_cons_head]
    exact ExitState.withCell_ok not_mem_nil
  · have hne : ¬(inner.process = 0 ∨
        (ExitState.left κ task inner allocator exitCode).holdsRes p = true) := by
      rw [hholds]
      simpa [initproc] using hinit
    simp only [exitCurrentAndRunNext, hcur, hp, hmain, hdealloc, do_some, if_true]
    exact if_neg hne

/-- The main thread of a process exits as it is meant to exactly if the process is not
the initial one and all its other threads have exited. -/
theorem main_exit_clean_iff (huser : inner.resume = .user) :
    ExitsCleanly κ tree inner.process exitCode ↔
      inner.process ≠ initproc ∧ OthersLeft κ inner.process task := by
  constructor
  · rintro ⟨s, hexit, -⟩
    have hinit : inner.process ≠ initproc := by
      intro hinit
      rw [exit_of_initproc hκ htree hcur hmain hlive exitCode hinit] at hexit
      cases hexit
    refine ⟨hinit, fun other th hother hprocess hne => ?_⟩
    cases hres : th.res with
    | none => rfl
    | some tid =>
      rw [exit_of_other hκ htree hcur hmain hlive exitCode hinit hother hprocess hne hres] at hexit
      cases hexit
  · rintro ⟨hinit, hothers⟩
    obtain ⟨s, hexit, hborrowed, hdropped, hkernel, -⟩ :=
      exit_of_others_left hκ htree hcur hmain hlive exitCode hinit hothers
    obtain ⟨-, hinner⟩ := Kernel.currentTask_eq_some hcur
    have hreach : s.kernel.Reachable :=
      hκ.step (.syscall (.exit exitCode) ⟨task, inner, hcur, huser⟩ hkernel)
    have hthreads : s.kernel.threadOf =
        Function.update κ.threadOf task (some ⟨inner.process, none, some exitCode⟩) := by
      obtain ⟨task', inner', t, tid, allocator, hcur', -, -, -, hthreads, -⟩ :=
        Kernel.exitCurrentAndRunNext_eq hkernel
      rw [hcur, Option.some.injEq, Prod.mk.injEq] at hcur'
      obtain ⟨rfl, rfl⟩ := hcur'
      exact hthreads
    have hcleared : ∀ (other : Nat) (th : TaskControlBlock), s.kernel.tasks[other]? = some th →
        th.process = inner.process → th.res = none := by
      intro other th hth hprocess
      have hthread := Kernel.threadOf_eq hth
      rw [hthreads, Kernel.update_eq_some] at hthread
      rcases hthread with ⟨-, heq⟩ | ⟨hne, hold⟩
      · rw [Kernel.Thread.mk.injEq] at heq
        exact heq.2.1.symm
      · obtain ⟨old, hold, heq⟩ := Option.map_eq_some_iff.mp hold
        rw [Kernel.Thread.mk.injEq] at heq
        rw [← heq.2.1]
        exact hothers other old hold (heq.1.trans hprocess) hne
    refine ⟨s, hexit, hborrowed, fun other th hth hprocess => ?_, fun other th hth hprocess => ?_,
      fun κ' hsteps other th hcur' => (hreach.trans hsteps).res_of_current hcur'⟩
    · by_cases heq : other = task
      · subst heq
        rw [hinner, Option.some.injEq] at hth
        simp [hdropped, ← hth, hmain]
      · rw [hdropped, hothers other th hth hprocess heq]
        simp [Ne.symm heq]
    · have hres := hcleared other th hth hprocess
      refine ⟨hres, hreach.notMem_of_res hth hres s.kernel.readyQueue ?_⟩
      exact List.mem_cons_of_mem _ List.mem_cons_self

end MainExit

theorem exists_forked : ∃ tree pcb, ProcessTree.Run tree [] ∧ tree.Live 1 pcb :=
  ⟨_, _, (ProcessTree.Run.boot fun _ => none).step (.fork ⟨rfl, rfl⟩ (i := 0) rfl), rfl, rfl⟩

/-- The second thread of process 1 has exited when the main thread does. -/
theorem main_exit_clean_iff_joined :
    ∃ κ tree, Kernel.Reachable κ ∧ ProcessTree.Inv tree ∧ κ.current = some 1 ∧
      ExitsCleanly κ tree 1 0 := by
  obtain ⟨tree, pcb, hrun, hlive⟩ := exists_forked
  obtain ⟨κ, hperform, htasks, hcur⟩ : ∃ κ, Kernel.boot.performAll Kernel.syncEvents [.runTasks,
      .syscall .fork, .syscall .yield, .runTasks, .syscall .threadCreate, .syscall .yield,
      .runTasks, .syscall .yield, .runTasks, .syscall (.exit 7), .runTasks] = some ([], κ) ∧
      κ.tasks = [⟨0, some 0, .ready, none, .user⟩, ⟨1, some 0, .running, none, .user⟩,
        ⟨1, none, .running, some 7, .user⟩] ∧ κ.current = some 1 := ⟨_, rfl, rfl, rfl⟩
  have hκ := (Kernel.traced_of_performAll _ hperform).reachable
  have htask : κ.currentTask = some (1, ⟨1, some 0, .running, none, .user⟩) := by
    simp [Kernel.currentTask, hcur, htasks]
  refine ⟨κ, tree, hκ, hrun.inv, hcur,
    (main_exit_clean_iff hκ hrun.inv htask rfl hlive 0 rfl).mpr ⟨by decide, ?_⟩⟩
  intro other inner hinner hprocess hne
  rw [htasks] at hinner
  rcases other with _ | _ | _ | other
  · cases hinner
    cases hprocess
  · exact absurd rfl hne
  · cases hinner
    rfl
  · simp at hinner

/-- The main thread of process 1 exits while its second thread is ready: the process
is borrowed twice. -/
theorem main_exit_with_ready_thread :
    ∃ κ tree, Kernel.Reachable κ ∧ ProcessTree.Inv tree ∧
      κ.currentTask = some (1, ⟨1, some 0, .running, none, .user⟩) ∧
      (∃ pcb, tree.Live 1 pcb) ∧
      κ.tasks[2]? = some ⟨1, some 1, .ready, none, .user⟩ ∧
      ExitState.exitCurrentAndRunNext 0 ⟨κ, tree, [], []⟩ =
        .error (.alreadyBorrowed (.process 1)) ∧
      ¬ExitsCleanly κ tree 1 0 := by
  obtain ⟨tree, pcb, hrun, hlive⟩ := exists_forked
  obtain ⟨κ, hperform, htask, hother⟩ : ∃ κ, Kernel.boot.performAll Kernel.syncEvents [.runTasks,
      .syscall .fork, .syscall .yield, .runTasks, .syscall .threadCreate] = some ([], κ) ∧
      κ.currentTask = some (1, ⟨1, some 0, .running, none, .user⟩) ∧
      κ.tasks[2]? = some ⟨1, some 1, .ready, none, .user⟩ := ⟨_, rfl, rfl, rfl⟩
  have hκ := (Kernel.traced_of_performAll _ hperform).reachable
  have hexit := exit_of_other hκ hrun.inv htask rfl hlive 0 (by decide) hother rfl (by decide) rfl
  refine ⟨κ, tree, hκ, hrun.inv, htask, ⟨pcb, hlive⟩, hother, hexit, ?_⟩
  rintro ⟨s, hok, -⟩
  rw [hexit] at hok
  cases hok

end RCore.Task
