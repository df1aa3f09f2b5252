import RCore.Lib.Queues
import RCore.Task.ProcessTree

/-!
# The invariant of the process tree

Every process but the initial one is in one children list, once, and its parent
link points to the owner of that list; `PID2PCB` holds the processes that have not
exited; the identifiers of the existing processes are those the allocator has
handed out and not got back.
-/

namespace RCore.Task.ProcessTree

open RCore.Lib.Queues List Option

variable {i j : Nat} {p q : ProcessControlBlock}

/-- The identifiers of the existing processes. -/
def pids (σ : ProcessTree) : List Nat :=
  σ.processes.flatMap fun cell => (cell.map (·.pid)).toList

structure Inv (σ : ProcessTree) : Prop where
  init : ∃ p, σ.get initproc = some p ∧ p.pid = 0 ∧ p.isZombie = false
  owns : σ.pidAllocator.Owns σ.pids
  small : σ.pidAllocator.current ≤ kernelHeapSize
  mem_map : ∀ pid i, (pid, i) ∈ σ.pid2pcb ↔
    ∃ p, σ.get i = some p ∧ p.isZombie = false ∧ p.pid = pid
  childOnce : ∀ i, σ.childRefs.count i = if (σ.get i).isSome ∧ i ≠ initproc then 1 else 0
  parent : ∀ j q, σ.get j = some q → ∀ i ∈ q.children,
    i ≠ j ∧ ∀ p, σ.get i = some p → p.parent = some j
  zombie : ∀ i p, σ.get i = some p → p.isZombie = true → p.children = []

/-! ## Views of an update -/

variable {σ σ' : ProcessTree}

theorem get_eq_some : σ.get i = some p ↔ σ.processes[i]? = some (some p) := by
  rw [get, join_eq_some_iff]

theorem get_length (σ : ProcessTree) : σ.get σ.processes.length = none := by
  simp [get]

theorem ne_length_of_get {k : Nat} (hk : σ.get k = some p) : k ≠ σ.processes.length := by
  rintro rfl
  rw [get_length] at hk
  cases hk

@[simp] theorem length_processes_update (σ : ProcessTree) (i : Nat)
    (f : ProcessControlBlock → ProcessControlBlock) :
    (σ.update i f).processes.length = σ.processes.length := by
  simp [update]

theorem get_update (σ : ProcessTree) (i : Nat) (f : ProcessControlBlock → ProcessControlBlock)
    (k : Nat) : (σ.update i f).get k = if i = k then (σ.get k).map f else σ.get k := by
  simp only [get, update, getElem?_modify]
  by_cases h : i = k
  · simp only [h, if_true]
    rcases σ.processes[k]? with _ | _ | p <;> rfl
  · simp [h]

theorem childRefs_update_of_eq (i : Nat) (f : ProcessControlBlock → ProcessControlBlock)
    (hf : ∀ p, (f p).children = p.children) :
    (σ.update i f).childRefs = σ.childRefs :=
  flatMap_modify_of_eq (fun cell => by cases cell <;> simp [childrenOf, hf]) _ _

theorem pids_update (i : Nat) (f : ProcessControlBlock → ProcessControlBlock)
    (hf : ∀ p, (f p).pid = p.pid) : (σ.update i f).pids = σ.pids :=
  flatMap_modify_of_eq (fun cell => by cases cell <;> simp [hf]) _ _

theorem processes_update_of_get (h : σ.get i = some p)
    (f : ProcessControlBlock → ProcessControlBlock) :
    (σ.update i f).processes = σ.processes.set i (some (f p)) := by
  have hi := get_eq_some.mp h
  refine ext_getElem? fun k => ?_
  simp only [update, getElem?_modify, getElem?_set]
  by_cases hk : i = k
  · subst hk
    obtain ⟨hlt, hget⟩ := List.getElem?_eq_some_iff.mp hi
    simp [hget, hlt]
  · simp [hk]

theorem count_childRefs_update (h : σ.get i = some p)
    (f : ProcessControlBlock → ProcessControlBlock) (x : Nat) :
    (σ.update i f).childRefs.count x + p.children.count x =
      σ.childRefs.count x + (f p).children.count x := by
  rw [childRefs, processes_update_of_get h]
  exact count_flatMap_set (get_eq_some.mp h) (some (f p)) childrenOf x

theorem mem_pids {pid : Nat} : pid ∈ σ.pids ↔ ∃ i p, σ.get i = some p ∧ p.pid = pid := by
  simp only [pids, mem_flatMap, mem_toList, map_eq_some_iff]
  constructor
  · rintro ⟨cell, hcell, p, rfl, hpid⟩
    obtain ⟨i, hi⟩ := getElem?_of_mem hcell
    exact ⟨i, p, get_eq_some.mpr hi, hpid⟩
  · rintro ⟨i, p, hp, hpid⟩
    exact ⟨some p, mem_of_getElem? (get_eq_some.mp hp), p, rfl, hpid⟩

theorem length_pids (σ : ProcessTree) : σ.pids.length = σ.processes.countP isSome := by
  rw [pids]
  induction σ.processes with
  | nil => rfl
  | cons cell cells ih => cases cell <;> simp [ih]

theorem mem_childRefs {x : Nat} :
    x ∈ σ.childRefs ↔ ∃ i p, σ.get i = some p ∧ x ∈ p.children := by
  simp only [childRefs, mem_flatMap]
  constructor
  · rintro ⟨cell, hcell, hx⟩
    obtain ⟨i, hi⟩ := getElem?_of_mem hcell
    cases cell with
    | none => simp [childrenOf] at hx
    | some p => exact ⟨i, p, get_eq_some.mpr hi, by simpa [childrenOf] using hx⟩
  · rintro ⟨i, p, hp, hx⟩
    exact ⟨some p, mem_of_getElem? (get_eq_some.mp hp), by simpa [childrenOf] using hx⟩

theorem count_children_le (hq : σ.get j = some q) (i : Nat) :
    q.children.count i ≤ σ.childRefs.count i := by
  have hclear := count_childRefs_update hq (fun p => { p with children := [] }) i
  simp only [count_nil, Nat.add_zero] at hclear
  omega

/-! ## What the invariant says -/

namespace Inv

variable (h : Inv σ)
include h

theorem eq_of_pid_eq (hp : σ.get i = some p) (hq : σ.get j = some q) (hpid : p.pid = q.pid) :
    i = j := by
  have hcount : σ.pids.count p.pid ≤ 1 := by
    have hown := h.owns p.pid
    split at hown <;> omega
  exact eq_of_count_flatMap_le_one hcount (get_eq_some.mp hp) (by simp)
    (get_eq_some.mp hq) (by simp [hpid])

theorem child_exists (hq : σ.get j = some q) (hi : i ∈ q.children) :
    i ≠ initproc ∧ ∃ p, σ.get i = some p := by
  have hpos := count_pos_iff.mpr (mem_childRefs.mpr ⟨j, q, hq, hi⟩)
  have honce := h.childOnce i
  by_cases hex : (σ.get i).isSome ∧ i ≠ initproc
  · exact ⟨hex.2, isSome_iff_exists.mp hex.1⟩
  · rw [if_neg hex] at honce
    omega

theorem notMem_children (hq : σ.get i = some q) : i ∉ q.children ∧ initproc ∉ q.children :=
  ⟨fun hmem => (h.parent i q hq i hmem).1 rfl, fun hmem => (h.child_exists hq hmem).1 rfl⟩

theorem nodup_children (hq : σ.get j = some q) : q.children.Nodup := by
  rw [nodup_iff_count_le_one]
  intro i
  have hle := count_children_le hq i
  have honce := h.childOnce i
  split at honce <;> omega

theorem exists_parent (hp : σ.get i = some p) (hi : i ≠ initproc) :
    ∃ j q, σ.get j = some q ∧ q.isZombie = false ∧ q.children.count i = 1 ∧
      p.parent = some j ∧ ∀ k r, σ.get k = some r → k ≠ j → i ∉ r.children := by
  have honce := h.childOnce i
  rw [if_pos ⟨by simp [hp], hi⟩] at honce
  obtain ⟨j, q, hq, hmem⟩ := mem_childRefs.mp (count_pos_iff.mp (honce ▸ Nat.one_pos))
  have hparent := (h.parent j q hq i hmem).2 p hp
  refine ⟨j, q, hq, ?_, count_eq_one_of_mem (h.nodup_children hq) hmem, hparent, ?_⟩
  · by_contra hz
    have hnil := h.zombie j q hq (by simpa using hz)
    simp [hnil] at hmem
  · intro k r hr hne hk
    have hother := (h.parent k r hr i hk).2 p hp
    exact hne (Option.some.inj (hother.symm.trans hparent))

theorem pid_lt (hp : σ.get i = some p) : p.pid < kernelHeapSize := by
  have hown := h.owns p.pid
  have hpos := count_pos_iff.mpr (mem_pids.mpr ⟨i, p, hp, rfl⟩)
  have hsmall := h.small
  split at hown <;> omega

theorem pid2process_eq_some {pid : Nat} : σ.pid2process pid = some i ↔
    ∃ p, σ.get i = some p ∧ p.isZombie = false ∧ p.pid = pid := by
  rw [← h.mem_map, pid2process]
  have hmem : ∀ j, σ.pid2pcb.lookup pid = some j → (pid, j) ∈ σ.pid2pcb := by
    intro j hj
    obtain ⟨before, after, hlist, -⟩ := lookup_eq_some_iff.mp hj
    simp [hlist]
  refine ⟨hmem i, fun hi => ?_⟩
  have hsome : (σ.pid2pcb.lookup pid).isSome :=
    lookup_isSome_iff.mpr ⟨(pid, i), hi, by simp⟩
  obtain ⟨j, hj⟩ := isSome_iff_exists.mp hsome
  -- two entries under one identifier are the same process
  obtain ⟨p, hp, -, hpid⟩ := (h.mem_map pid i).mp hi
  obtain ⟨q, hq, -, hqid⟩ := (h.mem_map pid j).mp (hmem j hj)
  rw [hj, h.eq_of_pid_eq hp hq (hpid.trans hqid.symm)]

end Inv

end RCore.Task.ProcessTree
