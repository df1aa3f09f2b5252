import RCore.Task.ProcessOps

/-!
# Exit and waitpid

A process that exits hands its children to the initial process and stays in the
children list of its parent until it is waited for.  `waitpid` then holds the last
reference, so the control block is freed.
-/

namespace RCore.Task.ProcessTree

open RCore.Lib.Queues List

variable {init : ProcessControlBlock} {k : Nat}

variable {σ σ' : ProcessTree} {i : Nat} {process : ProcessControlBlock}

/-! ## Adoption by the initial process -/

theorem get_adopt {child : Nat} (hchild : child ≠ initproc) (k : Nat) :
    (σ.adopt child).get k =
      if k = initproc then (σ.get k).map fun p => { p with children := p.children ++ [child] }
      else if k = child then (σ.get k).map fun p => { p with parent := some initproc }
      else σ.get k := by
  rw [adopt, get_update, get_update]
  by_cases hk : k = initproc
  · subst hk
    rw [if_pos rfl, if_neg hchild, if_pos rfl]
  · rw [if_neg (Ne.symm hk), if_neg hk]
    by_cases hkc : k = child
    · rw [if_pos hkc.symm, if_pos hkc]
    · rw [if_neg (Ne.symm hkc), if_neg hkc]

theorem get_foldl_adopt (children : List Nat) (hchildren : initproc ∉ children) (k : Nat) :
    (children.foldl adopt σ).get k =
      if k = initproc then (σ.get k).map fun p => { p with children := p.children ++ children }
      else if k ∈ children then (σ.get k).map fun p => { p with parent := some initproc }
      else σ.get k := by
  induction children generalizing σ with
  | nil => simp
  | cons child children ih =>
    obtain ⟨hchild, hrest⟩ := not_or.mp (fun hor => hchildren (mem_cons.mpr hor))
    rw [foldl_cons, ih hrest, get_adopt (Ne.symm hchild)]
    by_cases hk : k = initproc
    · simp [hk, Function.comp_def]
    · by_cases hkc : k = child
      · simp [hkc, Ne.symm hchild, Function.comp_def]
      · simp [hk, hkc]

theorem count_childRefs_adopt {child : Nat} (hchild : child ≠ initproc)
    (hinit : σ.get initproc = some init) (x : Nat) :
    (σ.adopt child).childRefs.count x = σ.childRefs.count x + [child].count x := by
  let link := fun p : ProcessControlBlock => { p with parent := some initproc }
  have hlink : (σ.update child link).childRefs = σ.childRefs :=
    childRefs_update_of_eq child link fun _ => rfl
  have hget : (σ.update child link).get initproc = some init := by
    rw [get_update, if_neg hchild, hinit]
  have hpush : (σ.adopt child).childRefs.count x + init.children.count x =
      (σ.update child link).childRefs.count x + (init.children ++ [child]).count x :=
    count_childRefs_update hget (fun p => { p with children := p.children ++ [child] }) x
  rw [hlink, count_append] at hpush
  omega

theorem count_childRefs_foldl_adopt (children : List Nat) (hchildren : initproc ∉ children)
    (hinit : σ.get initproc = some init) (x : Nat) :
    (children.foldl adopt σ).childRefs.count x = σ.childRefs.count x + children.count x := by
  induction children generalizing σ init with
  | nil => rfl
  | cons child children ih =>
    obtain ⟨hchild, hrest⟩ := not_or.mp (fun hor => hchildren (mem_cons.mpr hor))
    have hadopt : (σ.adopt child).get initproc =
        some { init with children := init.children ++ [child] } := by
      rw [get_adopt (Ne.symm hchild), if_pos rfl, hinit]
      rfl
    rw [foldl_cons, ih hrest hadopt, count_childRefs_adopt (Ne.symm hchild) hinit,
      Nat.add_assoc, ← count_append, singleton_append]

theorem pids_foldl_adopt (children : List Nat) : (children.foldl adopt σ).pids = σ.pids := by
  induction children generalizing σ with
  | nil => rfl
  | cons child children ih =>
    rw [foldl_cons, ih, adopt, pids_update, pids_update]
    · exact fun _ => rfl
    · exact fun _ => rfl

theorem pid2pcb_foldl_adopt (children : List Nat) :
    (children.foldl adopt σ).pid2pcb = σ.pid2pcb := by
  induction children generalizing σ with
  | nil => rfl
  | cons child children ih => rw [foldl_cons, ih]; rfl

theorem length_processes_foldl_adopt (children : List Nat) :
    (children.foldl adopt σ).processes.length = σ.processes.length := by
  induction children generalizing σ with
  | nil => rfl
  | cons child children ih => rw [foldl_cons, ih]; simp [adopt]

theorem pidAllocator_foldl_adopt (children : List Nat) :
    (children.foldl adopt σ).pidAllocator = σ.pidAllocator := by
  induction children generalizing σ with
  | nil => rfl
  | cons child children ih => rw [foldl_cons, ih]; rfl

/-! ## Exit -/

/-- The process `i` has become a zombie without children; its children are the
initial process's. -/
structure Exited (σ σ' : ProcessTree) (i : Nat) (process : ProcessControlBlock)
    (exitCode : Int) : Prop where
  get_self : σ'.get i =
    some { process with isZombie := true, exitCode := exitCode, children := [] }
  get_init : σ'.get initproc =
    (σ.get initproc).map fun p => { p with children := p.children ++ process.children }
  get_child : ∀ k ∈ process.children,
    σ'.get k = (σ.get k).map fun p => { p with parent := some initproc }
  get_of_ne : ∀ k, k ≠ i → k ≠ initproc → k ∉ process.children → σ'.get k = σ.get k
  mem_map : ∀ pid k, (pid, k) ∈ σ'.pid2pcb ↔ (pid, k) ∈ σ.pid2pcb ∧ pid ≠ process.pid
  length : σ'.processes.length = σ.processes.length
  pidAllocator : σ'.pidAllocator = σ.pidAllocator
  pids : σ'.pids = σ.pids
  childRefs : ∀ k, σ'.childRefs.count k = σ.childRefs.count k

namespace Exited

variable {exitCode : Int} (hexit : Exited σ σ' i process exitCode)
  (hp : σ.get i = some process) (h : Inv σ) (hi : i ≠ initproc)
include hexit

theorem get_old (hk : k ≠ i) :
    ∃ (parent : ProcessControlBlock → Option Nat) (children : ProcessControlBlock → List Nat),
      σ'.get k =
        (σ.get k).map fun p => { p with parent := parent p, children := children p } := by
  by_cases hinit : k = initproc
  · subst hinit
    exact ⟨fun p => p.parent, fun p => p.children ++ process.children, hexit.get_init⟩
  · by_cases hchild : k ∈ process.children
    · exact ⟨fun _ => some initproc, fun p => p.children, hexit.get_child k hchild⟩
    · refine ⟨fun p => p.parent, fun p => p.children, ?_⟩
      rw [hexit.get_of_ne k hk hinit hchild]
      simp

include hp h

theorem inv_mem_map (pid k : Nat) : (pid, k) ∈ σ'.pid2pcb ↔
    ∃ p, σ'.get k = some p ∧ p.isZombie = false ∧ p.pid = pid := by
  rw [hexit.mem_map, h.mem_map]
  by_cases hk : k = i
  · subst hk
    rw [hexit.get_self, hp]
    constructor
    · rintro ⟨⟨p, hget, -, rfl⟩, hne⟩
      exact absurd (congrArg _ (Option.some.inj hget).symm) hne
    · rintro ⟨p, hget, hz, -⟩
      rw [← Option.some.inj hget] at hz
      cases hz
  · obtain ⟨parent, children, hold⟩ := hexit.get_old hk
    rw [hold]
    constructor
    · rintro ⟨⟨p, hget, hz, hpid⟩, -⟩
      exact ⟨_, congrArg (Option.map _) hget, hz, hpid⟩
    · rintro ⟨p', hp', hz, rfl⟩
      obtain ⟨p, hget, rfl⟩ := Option.map_eq_some_iff.mp hp'
      exact ⟨⟨p, hget, hz, rfl⟩, fun heq => hk (h.eq_of_pid_eq hget hp heq)⟩

theorem inv_childOnce (k : Nat) :
    σ'.childRefs.count k = if (σ'.get k).isSome ∧ k ≠ initproc then 1 else 0 := by
  rw [hexit.childRefs, h.childOnce]
  by_cases hk : k = i
  · subst hk
    simp [hexit.get_self, hp]
  · obtain ⟨parent, children, hold⟩ := hexit.get_old hk
    simp [hold]

include hi

/-- A child of `i` has the initial process as its parent; the parent of every other
process is as before. -/
theorem parent_eq {p p' : ProcessControlBlock} (hk : σ.get k = some p) (hk' : σ'.get k = some p') :
    p'.parent = if k ∈ process.children then some initproc else p.parent := by
  by_cases hki : k = i
  · subst hki
    have hself : k ∉ process.children := fun hmem => (h.parent k process hp k hmem).1 rfl
    cases hexit.get_self.symm.trans hk'
    cases hp.symm.trans hk
    rw [if_neg hself]
  · by_cases hchild : k ∈ process.children
    · rw [hexit.get_child k hchild, hk] at hk'
      rw [← Option.some.inj hk', if_pos hchild]
    · rw [if_neg hchild]
      by_cases hinit : k = initproc
      · subst hinit
        rw [hexit.get_init, hk] at hk'
        rw [← Option.some.inj hk']
      · rw [hexit.get_of_ne k hki hinit hchild, hk] at hk'
        rw [← Option.some.inj hk']

theorem inv_parent (j : Nat) (q' : ProcessControlBlock) (hq' : σ'.get j = some q') (x : Nat)
    (hx : x ∈ q'.children) : x ≠ j ∧ ∀ p, σ'.get x = some p → p.parent = some j := by
  -- a link of before whose owner has not exited
  have hold : ∀ q, j ≠ i → σ.get j = some q → x ∈ q.children →
      x ≠ j ∧ ∀ p, σ'.get x = some p → p.parent = some j := by
    intro q hji hq hxq
    obtain ⟨-, p, hpx⟩ := h.child_exists hq hxq
    have hpar := (h.parent j q hq x hxq).2 p hpx
    refine ⟨(h.parent j q hq x hxq).1, fun p' hpx' => ?_⟩
    rw [hexit.parent_eq hp h hi hpx hpx']
    have hnot : x ∉ process.children := fun hmem => by
      have hother := (h.parent i process hp x hmem).2 p hpx
      exact hji (Option.some.inj (hpar.symm.trans hother))
    rw [if_neg hnot, hpar]
  by_cases hji : j = i
  · subst hji
    cases hexit.get_self.symm.trans hq'
    cases hx
  by_cases hinit : j = initproc
  · subst hinit
    rw [hexit.get_init] at hq'
    obtain ⟨q, hq, rfl⟩ := Option.map_eq_some_iff.mp hq'
    rcases mem_append.mp hx with hxq | hxc
    · exact hold q hji hq hxq
    · obtain ⟨hne, p, hpx⟩ := h.child_exists hp hxc
      refine ⟨hne, fun p' hpx' => ?_⟩
      rw [hexit.parent_eq hp h hi hpx hpx', if_pos hxc]
  · by_cases hchild : j ∈ process.children
    · rw [hexit.get_child j hchild] at hq'
      obtain ⟨q, hq, rfl⟩ := Option.map_eq_some_iff.mp hq'
      exact hold q hji hq hx
    · rw [hexit.get_of_ne j hji hinit hchild] at hq'
      exact hold q' hji hq' hx

omit hp in
theorem inv_zombie (k : Nat) (p : ProcessControlBlock) (hk : σ'.get k = some p)
    (hz : p.isZombie = true) : p.children = [] := by
  by_cases hki : k = i
  · subst hki
    rw [← Option.some.inj (hexit.get_self.symm.trans hk)]
  by_cases hinit : k = initproc
  · subst hinit
    obtain ⟨init, hinit, -, hlive⟩ := h.init
    rw [hexit.get_init, hinit] at hk
    rw [← Option.some.inj hk] at hz
    exact absurd hz (by simp [hlive])
  · by_cases hchild : k ∈ process.children
    · rw [hexit.get_child k hchild] at hk
      obtain ⟨p₀, hp₀, rfl⟩ := Option.map_eq_some_iff.mp hk
      exact h.zombie k p₀ hp₀ hz
    · rw [hexit.get_of_ne k hki hinit hchild] at hk
      exact h.zombie k p hk hz

theorem inv : Inv σ' where
  init := by
    obtain ⟨init, hinit, hpid, hz⟩ := h.init
    exact ⟨_, hexit.get_init.trans (congrArg (Option.map _) hinit), hpid, hz⟩
  owns := by
    rw [hexit.pidAllocator, hexit.pids]
    exact h.owns
  small := by
    rw [hexit.pidAllocator]
    exact h.small
  mem_map := hexit.inv_mem_map hp h
  childOnce := hexit.inv_childOnce hp h
  parent := hexit.inv_parent hp h hi
  zombie := hexit.inv_zombie h hi

end Exited

/-- What `exit_current_and_run_next` does to the heap, before it drops its own
reference. -/
theorem exited_foldl_adopt (hp : σ.get i = some process) (hi : i ≠ initproc)
    (hself : i ∉ process.children) (hinit : initproc ∉ process.children)
    (hget : σ.get initproc = some init) (exitCode : Int) {map : List (Nat × Nat)}
    (hmap : map = σ.pid2pcb.filter (·.1 != process.pid)) :
    Exited σ ((process.children.foldl adopt ({ σ with pid2pcb := map }.update i
      fun p => { p with isZombie := true, exitCode := exitCode })).update i
        fun p => { p with children := [] }) i process exitCode := by
  let die := fun p : ProcessControlBlock =>
    { p with isZombie := true, exitCode := exitCode }
  let clear := fun p : ProcessControlBlock => { p with children := [] }
  let σ₁ : ProcessTree := { σ with pid2pcb := map }
  let σ₂ : ProcessTree := process.children.foldl adopt (σ₁.update i die)
  have hdie : ∀ k, (σ₁.update i die).get k = if i = k then (σ.get k).map die else σ.get k :=
    get_update σ₁ i die
  have hdie_init : (σ₁.update i die).get initproc = some init := by
    rw [hdie, if_neg hi, hget]
  have hself₂ : σ₂.get i = some (die process) := by
    rw [get_foldl_adopt _ hinit, if_neg hi, if_neg hself, hdie, if_pos rfl, hp]
    rfl
  have hcells : ∀ k, k ≠ i → (σ₂.update i clear).get k = σ₂.get k := by
    intro k hk
    rw [get_update, if_neg (Ne.symm hk)]
  have hrefs : ∀ k, (σ₂.update i clear).childRefs.count k = σ.childRefs.count k := by
    intro k
    have hclear : (σ₂.update i clear).childRefs.count k + process.children.count k =
        σ₂.childRefs.count k + [].count k := count_childRefs_update hself₂ clear k
    have hadopt : σ₂.childRefs.count k = σ.childRefs.count k + process.children.count k := by
      rw [count_childRefs_foldl_adopt _ hinit hdie_init,
        childRefs_update_of_eq i die fun _ => rfl]
      rfl
    rw [count_nil] at hclear
    omega
  refine ⟨?_, ?_, fun k hk => ?_, fun k hki hkinit hkc => ?_, fun pid k => ?_, ?_, ?_, ?_, hrefs⟩
  · exact (get_update σ₂ i clear i).trans (by rw [if_pos rfl, hself₂]; rfl)
  · rw [hcells _ (Ne.symm hi), get_foldl_adopt _ hinit, if_pos rfl, hdie, if_neg hi]
  · have hki : k ≠ i := fun heq => hself (heq ▸ hk)
    have hkinit : k ≠ initproc := fun heq => hinit (heq ▸ hk)
    rw [hcells k hki, get_foldl_adopt _ hinit, if_neg hkinit, if_pos hk, hdie, if_neg (Ne.symm hki)]
  · rw [hcells k hki, get_foldl_adopt _ hinit, if_neg hkinit, if_neg hkc, hdie,
      if_neg (Ne.symm hki)]
  · rw [update, pid2pcb_foldl_adopt, update, hmap]
    simp
  · rw [length_processes_update, length_processes_foldl_adopt, length_processes_update]
  · rw [update, pidAllocator_foldl_adopt, update]
  · rw [pids_update, pids_foldl_adopt, pids_update]
    · rfl
    · exact fun _ => rfl
    · exact fun _ => rfl

theorem exitCurrentAndRunNext_eq (h : Inv σ) (hp : σ.get i = some process)
    (hlive : process.isZombie = false) (hi : i ≠ initproc) (exitCode : Int) :
    ∃ σ', σ.exitCurrentAndRunNext i exitCode = .ok σ' ∧ Exited σ σ' i process exitCode := by
  obtain ⟨hself, hinit⟩ := h.notMem_children hp
  obtain ⟨init, hget, -⟩ := h.init
  have hfound : σ.pid2process process.pid = some i :=
    h.pid2process_eq_some.mpr ⟨process, hp, hlive, rfl⟩
  have hexit := exited_foldl_adopt hp hi hself hinit hget exitCode rfl
  refine ⟨_, ?_, hexit⟩
  -- the parent's children list still refers to the process, so it is not freed
  have hrefs := (hexit.inv hp h hi).childOnce i
  rw [if_pos ⟨by rw [hexit.get_self]; rfl, hi⟩] at hrefs
  rw [exitCurrentAndRunNext, hp]
  simp only [removeFromPid2process, hfound]
  rw [if_neg (by simp [hi, hself, hinit]), release, if_neg]
  rw [strongCount]
  omega

/-! ## Waitpid -/

section Free

variable {index : Nat} (h : σ'.processes = σ.processes.set index none)
include h

theorem get_free (k : Nat) : σ'.get k = if k = index then none else σ.get k := by
  rw [get, get, h, getElem?_set]
  by_cases hk : index = k
  · subst hk
    by_cases hlt : index < σ.processes.length <;> simp [hlt]
  · rw [if_neg hk, if_neg (Ne.symm hk)]

variable {child : ProcessControlBlock} (hchild : σ.get index = some child)
include hchild

theorem count_pids_free (x : Nat) :
    σ'.pids.count x + [child.pid].count x = σ.pids.count x := by
  have hset := count_flatMap_set (get_eq_some.mp hchild) none
    (fun cell => (cell.map (·.pid)).toList) x
  rw [pids, h]
  exact hset

theorem count_childRefs_free (x : Nat) :
    σ'.childRefs.count x + child.children.count x = σ.childRefs.count x := by
  have hset := count_flatMap_set (get_eq_some.mp hchild) none childrenOf x
  rw [childRefs, h]
  exact hset

end Free

/-- The exited child `index` of the process `i` is gone. -/
structure Reaped (σ σ' : ProcessTree) (i : Nat) (process : ProcessControlBlock) (index : Nat)
    (memory : UserMemory) : Prop where
  get_child : σ'.get index = none
  get_self : σ'.get i =
    some { process with children := process.children.erase index, memory := memory }
  get_of_ne : ∀ k, k ≠ index → k ≠ i → σ'.get k = σ.get k
  length : σ'.processes.length = σ.processes.length
  pid2pcb : σ'.pid2pcb = σ.pid2pcb
  owns : σ'.pidAllocator.Owns σ'.pids
  current : σ'.pidAllocator.current = σ.pidAllocator.current
  childRefs : ∀ k, σ'.childRefs.count k + [index].count k = σ.childRefs.count k

namespace Reaped

variable {index : Nat} {memory : UserMemory} {child : ProcessControlBlock}
  (hreap : Reaped σ σ' i process index memory) (h : Inv σ) (hp : σ.get i = some process)
  (hmem : index ∈ process.children) (hchild : σ.get index = some child)
  (hz : child.isZombie = true)
include hreap hp

theorem get_old (hk : k ≠ index) :
    ∃ (children : ProcessControlBlock → List Nat) (memory : ProcessControlBlock → UserMemory),
      σ'.get k =
        (σ.get k).map fun p => { p with children := children p, memory := memory p } := by
  by_cases hki : k = i
  · subst hki
    exact ⟨fun p => p.children.erase index, fun _ => memory, by rw [hreap.get_self, hp]; rfl⟩
  · refine ⟨fun p => p.children, fun p => p.memory, ?_⟩
    rw [hreap.get_of_ne k hk hki]
    simp

include h hchild

theorem inv_mem_map (hz : child.isZombie = true) (pid k : Nat) : (pid, k) ∈ σ'.pid2pcb ↔
    ∃ p, σ'.get k = some p ∧ p.isZombie = false ∧ p.pid = pid := by
  rw [hreap.pid2pcb, h.mem_map]
  by_cases hk : k = index
  · subst hk
    rw [hreap.get_child, hchild]
    simp [hz]
  · obtain ⟨children, memory, hold⟩ := hreap.get_old hp hk
    rw [hold]
    cases σ.get k <;> simp

include hmem

theorem inv_childOnce (k : Nat) :
    σ'.childRefs.count k = if (σ'.get k).isSome ∧ k ≠ initproc then 1 else 0 := by
  have hcount := hreap.childRefs k
  have honce := h.childOnce k
  by_cases hk : k = index
  · subst hk
    rw [if_pos ⟨by simp [hchild], (h.child_exists hp hmem).1⟩] at honce
    rw [count_singleton_self] at hcount
    simp only [hreap.get_child, Option.isSome_none, Bool.false_eq_true, false_and, if_false]
    omega
  · obtain ⟨children, memory, hold⟩ := hreap.get_old hp hk
    rw [hold, Option.isSome_map, ← honce, ← hcount]
    simp [Ne.symm hk]

omit hmem hchild

theorem inv_parent (j : Nat) (q' : ProcessControlBlock) (hq' : σ'.get j = some q') (x : Nat)
    (hx : x ∈ q'.children) : x ≠ j ∧ ∀ p, σ'.get x = some p → p.parent = some j := by
  have hjne : j ≠ index := by
    rintro rfl
    rw [hreap.get_child] at hq'
    cases hq'
  have hold : ∃ q, σ.get j = some q ∧ x ∈ q.children := by
    by_cases hji : j = i
    · subst hji
      rw [← Option.some.inj (hreap.get_self.symm.trans hq')] at hx
      exact ⟨process, hp, mem_of_mem_erase hx⟩
    · rw [hreap.get_of_ne j hjne hji] at hq'
      exact ⟨q', hq', hx⟩
  obtain ⟨q, hq, hxq⟩ := hold
  refine ⟨(h.parent j q hq x hxq).1, fun p' hp' => ?_⟩
  have hxne : x ≠ index := by
    rintro rfl
    rw [hreap.get_child] at hp'
    cases hp'
  obtain ⟨children, memory, hsame⟩ := hreap.get_old hp hxne
  rw [hsame] at hp'
  obtain ⟨p, hpx, rfl⟩ := Option.map_eq_some_iff.mp hp'
  exact (h.parent j q hq x hxq).2 p hpx

theorem inv_zombie (k : Nat) (p' : ProcessControlBlock) (hk : σ'.get k = some p')
    (hz : p'.isZombie = true) : p'.children = [] := by
  have hkne : k ≠ index := by
    rintro rfl
    rw [hreap.get_child] at hk
    cases hk
  by_cases hki : k = i
  · subst hki
    cases hreap.get_self.symm.trans hk
    simp [h.zombie k process hp hz]
  · rw [hreap.get_of_ne k hkne hki] at hk
    exact h.zombie k p' hk hz

include hmem hchild hz

theorem inv : Inv σ' where
  init := by
    obtain ⟨init, hinit, hpid, hlive⟩ := h.init
    have hne : initproc ≠ index := (h.child_exists hp hmem).1.symm
    obtain ⟨children, memory, hold⟩ := hreap.get_old hp hne
    exact ⟨_, hold.trans (congrArg (Option.map _) hinit), hpid, hlive⟩
  owns := hreap.owns
  small := by
    rw [hreap.current]
    exact h.small
  mem_map := hreap.inv_mem_map h hp hchild hz
  childOnce := hreap.inv_childOnce h hp hmem hchild
  parent := hreap.inv_parent h hp
  zombie := hreap.inv_zombie h hp

end Reaped

theorem isExited_iff : σ.isExited k = true ↔ ∃ p, σ.get k = some p ∧ p.isZombie = true := by
  rw [isExited]
  cases σ.get k <;> simp

theorem findExited_eq_some {children : List Nat} {pid : Int} {index : Nat}
    (hfind : σ.findExited children pid = some index) :
    index ∈ children ∧ σ.matchesPid pid index = true ∧
      ∃ child, σ.get index = some child ∧ child.isZombie = true := by
  have hboth := find?_some hfind
  rw [Bool.and_eq_true] at hboth
  exact ⟨mem_of_find?_eq_some hfind, hboth.2, isExited_iff.mp hboth.1⟩

section

variable (h : Inv σ) (hp : σ.get i = some process) {index : Nat} (hmem : index ∈ process.children)
  {child : ProcessControlBlock} (hchild : σ.get index = some child) (hz : child.isZombie = true)
include h hp hmem hchild hz

theorem strongCount_erase :
    (σ.update i fun p => { p with children := p.children.erase index }).strongCount index = 0 := by
  have hne : index ≠ initproc := (h.child_exists hp hmem).1
  have hmap : (σ.pid2pcb.map (·.2)).count index = 0 := by
    rw [count_eq_zero, mem_map]
    rintro ⟨⟨pid, _⟩, hentry, rfl⟩
    obtain ⟨p, hget, hlive, -⟩ := (h.mem_map pid _).mp hentry
    cases hchild.symm.trans hget
    rw [hz] at hlive
    cases hlive
  have herase := count_childRefs_update hp
    (fun p => { p with children := p.children.erase index }) index
  have honce := h.childOnce index
  rw [if_pos ⟨by simp [hchild], hne⟩] at honce
  rw [count_erase_self, honce, count_eq_one_of_mem (h.nodup_children hp) hmem] at herase
  rw [strongCount, if_neg hne]
  simp only [update] at herase ⊢
  omega

/-- The last reference to an exited child is dropped. -/
theorem reaped_release (memory : UserMemory) :
    ∃ σ', ((σ.update i fun p => { p with children := p.children.erase index }).update i
        fun p => { p with memory := memory }).release index = .ok σ' ∧
      Reaped σ σ' i process index memory := by
  let erase := fun p : ProcessControlBlock => { p with children := p.children.erase index }
  let write := fun p : ProcessControlBlock => { p with memory := memory }
  let σ₁ : ProcessTree := (σ.update i erase).update i write
  have hne : index ≠ i := (h.parent i process hp index hmem).1
  have hget : ∀ k, k ≠ i → σ₁.get k = σ.get k := by
    intro k hk
    rw [get_update, if_neg (Ne.symm hk), get_update, if_neg (Ne.symm hk)]
  have hself : σ₁.get i = some (write (erase process)) := by
    rw [get_update, if_pos rfl, get_update, if_pos rfl, hp]
    rfl
  have hpids : σ₁.pids = σ.pids := by
    rw [pids_update i write fun _ => rfl, pids_update i erase fun _ => rfl]
  have hrefs : σ₁.childRefs = (σ.update i erase).childRefs :=
    childRefs_update_of_eq i write fun _ => rfl
  have hcount : σ₁.strongCount index = 0 := by
    have hzero := strongCount_erase h hp hmem hchild hz
    rw [strongCount] at hzero ⊢
    rw [hrefs]
    exact hzero
  have hchild₁ : σ₁.get index = some child := by rw [hget index hne, hchild]
  obtain ⟨allocator, hdealloc, hcurrent, howns⟩ :=
    h.owns.dealloc (mem_pids.mpr ⟨index, child, hchild, rfl⟩)
  let σ₂ : ProcessTree :=
    { σ₁ with processes := σ₁.processes.set index none, pidAllocator := allocator }
  have hfree : σ₂.processes = σ₁.processes.set index none := rfl
  refine ⟨σ₂, ?_, ?_, ?_, fun k hk hki => ?_, ?_, rfl, ?_, hcurrent, fun k => ?_⟩
  · have hdealloc₁ : σ₁.pidAllocator.dealloc child.pid = some allocator := hdealloc
    change σ₁.release index = _
    rw [release, if_pos hcount, hchild₁]
    simp only [hdealloc₁]
    rfl
  · rw [get_free hfree, if_pos rfl]
  · rw [get_free hfree, if_neg (Ne.symm hne), hself]
  · rw [get_free hfree, if_neg hk, hget k hki]
  · rw [hfree, length_set, length_processes_update, length_processes_update]
  · refine howns.congr fun x => ?_
    have hx := count_pids_free hfree hchild₁ x
    rw [hpids] at hx
    rw [count_erase, ← hx, count_singleton]
    omega
  · have hx := count_childRefs_free hfree hchild₁ k
    have hpush : (σ.update i erase).childRefs.count k + process.children.count k =
        σ.childRefs.count k + (process.children.erase index).count k :=
      count_childRefs_update hp erase k
    have hle : [index].count k ≤ process.children.count k := by
      rw [count_singleton]
      split
      · next heq => exact count_pos_iff.mpr (by simpa [← beq_iff_eq.mp heq] using hmem)
      · exact Nat.zero_le _
    rw [h.zombie index child hchild hz, count_nil, hrefs] at hx
    rw [count_erase] at hpush
    rw [count_singleton] at hle ⊢
    omega

end

section Waitpid

variable (h : Inv σ) (hp : σ.get i = some process) {pid : Int} (exitCodePtr : Nat)
include hp

theorem sysWaitpid_noMatch
    (hnone : ∀ c ∈ process.children, σ.matchesPid pid c = false) :
    σ.sysWaitpid i pid exitCodePtr = .ok (σ, -1) := by
  have hany : process.children.any (σ.matchesPid pid) = false :=
    any_eq_false.mpr fun c hc => by simp [hnone c hc]
  rw [sysWaitpid, hp]
  simp only [hany, Bool.not_false, if_true]

include h

theorem sysWaitpid_running (hmatch : ∃ c ∈ process.children, σ.matchesPid pid c = true)
    (hfind : σ.findExited process.children pid = none) :
    σ.sysWaitpid i pid exitCodePtr = .ok (σ, -2) := by
  have hself : i ∉ process.children := fun hmem => (h.parent i process hp i hmem).1 rfl
  have hany : process.children.any (σ.matchesPid pid) = true := any_eq_true.mpr hmatch
  rw [sysWaitpid, hp]
  simp only [hany, hself, hfind, Bool.not_true, Bool.false_eq_true, if_false]

theorem sysWaitpid_exited {index : Nat} {child : ProcessControlBlock}
    (hfind : σ.findExited process.children pid = some index) (hchild : σ.get index = some child) :
    match writeExitCode process.memory exitCodePtr child.exitCode with
    | .error panic => σ.sysWaitpid i pid exitCodePtr = .error panic
    | .ok memory => ∃ σ', σ.sysWaitpid i pid exitCodePtr = .ok (σ', wrapIsize child.pid) ∧
        Reaped σ σ' i process index memory := by
  obtain ⟨hmem, hmatch, found, hfound, hz⟩ := findExited_eq_some hfind
  cases hchild.symm.trans hfound
  have hself : i ∉ process.children := fun hmem => (h.parent i process hp i hmem).1 rfl
  have hne : index ≠ i := (h.parent i process hp index hmem).1
  have hany : process.children.any (σ.matchesPid pid) = true :=
    any_eq_true.mpr ⟨index, hmem, hmatch⟩
  have hcount := strongCount_erase h hp hmem hchild hz
  have hget : (σ.update i fun p => { p with children := p.children.erase index }).get index =
      some child := by
    rw [get_update, if_neg (Ne.symm hne), hchild]
  rw [sysWaitpid, hp]
  simp only [hany, hself, hfind, hcount, hget, Bool.not_true, Bool.false_eq_true, if_false,
    Nat.zero_add, ne_eq, not_true_eq_false]
  cases writeExitCode process.memory exitCodePtr child.exitCode with
  | error panic => rfl
  | ok memory =>
    obtain ⟨σ', hrelease, hreap⟩ := reaped_release h hp hmem hchild hz memory
    exact ⟨σ', by simp only [hrelease], hreap⟩

end Waitpid

end RCore.Task.ProcessTree
