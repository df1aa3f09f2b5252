import RCore.Task.ProcessInvariant

/-!
# The system calls keep the process tree

For each system call: which cells of the heap it changes, that it does not panic
where the kernel relies on it, and that it keeps the invariant.
-/

namespace RCore.Task.ProcessTree

open RCore.Lib.Queues List Option

variable {σ σ' : ProcessTree} {i : Nat} {process : ProcessControlBlock}

theorem inv_boot (memory : UserMemory) : Inv (boot memory) where
  init := ⟨_, rfl, rfl, rfl⟩
  owns := RecycleAllocator.owns_new.alloc
  small := show 1 ≤ 0x200000 by decide
  mem_map pid i := by
    have hmap : (boot memory).pid2pcb = [(0, 0)] := rfl
    rw [hmap, mem_singleton, Prod.mk.injEq]
    constructor
    · rintro ⟨rfl, rfl⟩
      exact ⟨_, rfl, rfl, rfl⟩
    · rintro ⟨p, hp, -, rfl⟩
      cases i with
      | zero =>
        cases hp
        exact ⟨rfl, rfl⟩
      | succ i => simp [boot, get] at hp
  childOnce i := by
    cases i with
    | zero => rfl
    | succ i => simp [boot, childRefs, childrenOf, get]
  parent j q hq := by
    cases j with
    | zero =>
      cases hq
      simp
    | succ j => simp [boot, get] at hq
  zombie i p hp := by
    cases i with
    | zero =>
      cases hp
      simp
    | succ i => simp [boot, get] at hp

/-- A change of what the tree does not depend on. -/
theorem Inv.update_of_eq (h : Inv σ) {f : ProcessControlBlock → ProcessControlBlock}
    (hf : ∀ p, (f p).pid = p.pid ∧ (f p).isZombie = p.isZombie ∧ (f p).parent = p.parent ∧
      (f p).children = p.children) (i : Nat) : Inv (σ.update i f) := by
  have hget : ∀ k, ∃ g : ProcessControlBlock → ProcessControlBlock,
      (σ.update i f).get k = (σ.get k).map g ∧ ∀ p, (g p).pid = p.pid ∧
        (g p).isZombie = p.isZombie ∧ (g p).parent = p.parent ∧ (g p).children = p.children := by
    intro k
    rw [get_update]
    by_cases hk : i = k
    · exact ⟨f, if_pos hk, hf⟩
    · exact ⟨id, by rw [if_neg hk, Option.map_id, id], fun p => ⟨rfl, rfl, rfl, rfl⟩⟩
  refine ⟨?_, ?_, h.small, ?_, ?_, ?_, ?_⟩
  · obtain ⟨p, hp, hpid, hz⟩ := h.init
    obtain ⟨g, hg, hsame⟩ := hget initproc
    exact ⟨g p, by rw [hg, hp]; rfl, by rw [(hsame p).1, hpid], by rw [(hsame p).2.1, hz]⟩
  · rw [pids_update i f fun p => (hf p).1]
    exact h.owns
  · intro pid k
    obtain ⟨g, hg, hsame⟩ := hget k
    refine (h.mem_map pid k).trans ?_
    rw [hg]
    cases σ.get k with
    | none => simp
    | some p => simp [hsame]
  · intro k
    obtain ⟨g, hg, -⟩ := hget k
    rw [childRefs_update_of_eq i f fun p => (hf p).2.2.2, hg, isSome_map]
    exact h.childOnce k
  · intro j q' hq' x hx
    obtain ⟨g, hg, hsame⟩ := hget j
    obtain ⟨q, hq, rfl⟩ := map_eq_some_iff.mp (hg ▸ hq')
    rw [(hsame q).2.2.2] at hx
    refine ⟨(h.parent j q hq x hx).1, fun p' hp' => ?_⟩
    obtain ⟨g', hg', hsame'⟩ := hget x
    obtain ⟨p, hp, rfl⟩ := map_eq_some_iff.mp (hg' ▸ hp')
    rw [(hsame' p).2.2.1]
    exact (h.parent j q hq x hx).2 p hp
  · intro k p' hp' hz
    obtain ⟨g, hg, hsame⟩ := hget k
    obtain ⟨p, hp, rfl⟩ := map_eq_some_iff.mp (hg ▸ hp')
    rw [(hsame p).2.2.2]
    exact h.zombie k p hp (by rw [← (hsame p).2.1, hz])

theorem Inv.sysExec (h : Inv σ) (i : Nat) (image : Option (UserMemory × Nat)) :
    Inv (σ.sysExec i image).1 := by
  cases image with
  | none => exact h
  | some image =>
    refine h.update_of_eq ?_ i
    exact fun p => ⟨rfl, rfl, rfl, rfl⟩

theorem Inv.sysKill (h : Inv σ) (pid : Nat) (signal : SignalFlags) :
    Inv (σ.sysKill pid signal).1 := by
  rw [ProcessTree.sysKill]
  split
  · exact h
  · split
    · exact h
    · refine h.update_of_eq ?_ _
      exact fun p => ⟨rfl, rfl, rfl, rfl⟩

theorem Inv.currentAddSignal (h : Inv σ) (i : Nat) (signal : SignalFlags) :
    Inv (σ.currentAddSignal i signal) := by
  refine h.update_of_eq ?_ i
  exact fun p => ⟨rfl, rfl, rfl, rfl⟩

/-! ## Fork -/

section Append

variable {child : ProcessControlBlock} (h : σ'.processes = σ.processes ++ [some child])
include h

theorem get_append (k : Nat) :
    σ'.get k = if k = σ.processes.length then some child else σ.get k := by
  rw [get, get, h, getElem?_append]
  rcases Nat.lt_trichotomy k σ.processes.length with hk | hk | hk
  · rw [if_pos hk, if_neg (by omega)]
  · simp [hk]
  · have hafter : [some child][k - σ.processes.length]? = none :=
      getElem?_eq_none (by rw [length_singleton]; omega)
    rw [if_neg (by omega), if_neg (by omega), hafter, getElem?_eq_none (Nat.le_of_lt hk)]

theorem childRefs_append : σ'.childRefs = σ.childRefs ++ child.children := by
  simp [childRefs, h, childrenOf]

theorem pids_append : σ'.pids = σ.pids ++ [child.pid] := by
  simp [pids, h]

end Append

/-- A new child of the process `i` in a new cell, with an identifier that was not in
use. -/
structure Forked (σ σ' : ProcessTree) (i : Nat) (process child : ProcessControlBlock) : Prop where
  get : ∀ k, σ'.get k =
    if k = σ.processes.length then some child
    else if k = i then
      some { process with children := process.children ++ [σ.processes.length] }
    else σ.get k
  length : σ'.processes.length = σ.processes.length + 1
  isZombie : child.isZombie = false
  parent : child.parent = some i
  children : child.children = []
  pid_notMem : child.pid ∉ σ.pids
  mem_map : ∀ pid k, (pid, k) ∈ σ'.pid2pcb ↔
    (pid, k) = (child.pid, σ.processes.length) ∨ (pid, k) ∈ σ.pid2pcb ∧ pid ≠ child.pid
  owns : σ'.pidAllocator.Owns σ'.pids
  small : σ'.pidAllocator.current ≤ kernelHeapSize
  childRefs : ∀ k,
    σ'.childRefs.count k = σ.childRefs.count k + [σ.processes.length].count k

namespace Forked

variable {child : ProcessControlBlock} (hfork : Forked σ σ' i process child)
  (hp : σ.get i = some process)
include hfork hp

omit hp in
theorem get_new : σ'.get σ.processes.length = some child := by
  rw [hfork.get, if_pos rfl]

theorem get_self : σ'.get i =
    some { process with children := process.children ++ [σ.processes.length] } := by
  rw [hfork.get, if_neg (ne_length_of_get hp), if_pos rfl]

omit hp in
theorem get_of_ne {k : Nat} (hk : k ≠ σ.processes.length) (hki : k ≠ i) :
    σ'.get k = σ.get k := by
  rw [hfork.get, if_neg hk, if_neg hki]

theorem get_old {k : Nat} (hk : k ≠ σ.processes.length) :
    ∃ children : ProcessControlBlock → List Nat,
      σ'.get k = (σ.get k).map fun p => { p with children := children p } := by
  by_cases hki : k = i
  · subst hki
    exact ⟨fun _ => _, by rw [hfork.get_self hp, hp]; rfl⟩
  · exact ⟨fun p => p.children, by rw [hfork.get_of_ne hk hki]; simp⟩

theorem inv_mem_map (h : Inv σ) (pid k : Nat) : (pid, k) ∈ σ'.pid2pcb ↔
    ∃ p, σ'.get k = some p ∧ p.isZombie = false ∧ p.pid = pid := by
  rw [hfork.mem_map, h.mem_map]
  by_cases hk : k = σ.processes.length
  · subst hk
    rw [hfork.get_new, get_length]
    constructor
    · rintro (heq | ⟨⟨p, hp, -⟩, -⟩)
      · exact ⟨child, rfl, hfork.isZombie, (Prod.mk.inj heq).1.symm⟩
      · cases hp
    · rintro ⟨p, hp, -, rfl⟩
      rw [← Option.some.inj hp]
      exact Or.inl rfl
  · obtain ⟨children, hold⟩ := hfork.get_old hp hk
    rw [hold]
    constructor
    · rintro (heq | ⟨⟨p, hget, hz, hpid⟩, -⟩)
      · exact absurd (Prod.mk.inj heq).2 hk
      · exact ⟨_, congrArg (Option.map _) hget, hz, hpid⟩
    · rintro ⟨p', hp', hz, rfl⟩
      obtain ⟨p, hget, rfl⟩ := map_eq_some_iff.mp hp'
      refine Or.inr ⟨⟨p, hget, hz, rfl⟩, fun heq => hfork.pid_notMem ?_⟩
      exact mem_pids.mpr ⟨k, p, hget, heq⟩

theorem inv_childOnce (h : Inv σ) (k : Nat) :
    σ'.childRefs.count k = if (σ'.get k).isSome ∧ k ≠ initproc then 1 else 0 := by
  rw [hfork.childRefs, h.childOnce]
  by_cases hk : k = σ.processes.length
  · subst hk
    obtain ⟨init, hinit, -⟩ := h.init
    simp [hfork.get_new, get_length, (ne_length_of_get hinit).symm]
  · obtain ⟨children, hold⟩ := hfork.get_old hp hk
    simp [hold, Ne.symm hk]

theorem inv_parent (h : Inv σ) (j : Nat) (q : ProcessControlBlock) (hq : σ'.get j = some q)
    (x : Nat) (hx : x ∈ q.children) :
    x ≠ j ∧ ∀ p, σ'.get x = some p → p.parent = some j := by
  -- a child link of before is still there, with the same parent field
  have hold : ∀ q, σ.get j = some q → x ∈ q.children →
      x ≠ j ∧ ∀ p, σ'.get x = some p → p.parent = some j := by
    intro q hq hx
    refine ⟨(h.parent j q hq x hx).1, fun p hpx => ?_⟩
    obtain ⟨-, p₀, hp₀⟩ := h.child_exists hq hx
    obtain ⟨children, hsame⟩ := hfork.get_old hp (ne_length_of_get hp₀)
    rw [hsame, hp₀] at hpx
    rw [← Option.some.inj hpx]
    exact (h.parent j q hq x hx).2 p₀ hp₀
  by_cases hj : j = σ.processes.length
  · subst hj
    cases hfork.get_new.symm.trans hq
    simp [hfork.children] at hx
  · by_cases hji : j = i
    · subst hji
      cases (hfork.get_self hp).symm.trans hq
      rcases mem_append.mp hx with hx | hx
      · exact hold process hp hx
      · obtain rfl := mem_singleton.mp hx
        refine ⟨(ne_length_of_get hp).symm, fun p hpx => ?_⟩
        rw [← Option.some.inj (hfork.get_new.symm.trans hpx), hfork.parent]
    · rw [hfork.get_of_ne hj hji] at hq
      exact hold q hq hx

theorem inv_zombie (h : Inv σ) (hlive : process.isZombie = false) (k : Nat)
    (p : ProcessControlBlock) (hk : σ'.get k = some p) (hz : p.isZombie = true) :
    p.children = [] := by
  by_cases hkn : k = σ.processes.length
  · subst hkn
    cases hfork.get_new.symm.trans hk
    exact hfork.children
  · by_cases hki : k = i
    · subst hki
      cases (hfork.get_self hp).symm.trans hk
      rw [hlive] at hz
      cases hz
    · rw [hfork.get_of_ne hkn hki] at hk
      exact h.zombie k p hk hz

theorem inv (h : Inv σ) (hlive : process.isZombie = false) : Inv σ' where
  init := by
    obtain ⟨init, hinit, hpid, hz⟩ := h.init
    obtain ⟨children, hold⟩ := hfork.get_old hp (ne_length_of_get hinit)
    exact ⟨_, hold.trans (congrArg (Option.map _) hinit), hpid, hz⟩
  owns := hfork.owns
  small := hfork.small
  mem_map := hfork.inv_mem_map hp h
  childOnce := hfork.inv_childOnce hp h
  parent := hfork.inv_parent hp h
  zombie := hfork.inv_zombie hp h hlive

end Forked

theorem Inv.alloc_current_le (h : Inv σ)
    (hroom : ¬kernelHeapSize ≤ σ.processes.countP isSome) :
    σ.pidAllocator.alloc.2.current ≤ kernelHeapSize := by
  have hlen := h.owns.length_add_length
  have hsmall := h.small
  rw [length_pids] at hlen
  rw [RecycleAllocator.alloc]
  cases hrecycled : σ.pidAllocator.recycled with
  | nil =>
    rw [hrecycled, length_nil] at hlen
    simp only
    omega
  | cons id recycled => exact hsmall

theorem mem_insertIntoPid2process {σ : ProcessTree} {pid process q k : Nat} :
    (q, k) ∈ (σ.insertIntoPid2process pid process).pid2pcb ↔
      (q, k) = (pid, process) ∨ (q, k) ∈ σ.pid2pcb ∧ q ≠ pid := by
  simp [insertIntoPid2process]

/-- `fork` creates a child, unless the kernel heap is full. -/
theorem sysFork_eq (h : Inv σ) (hp : σ.get i = some process) :
    σ.sysFork i = .error .heapExhausted ∨ ∃ σ' child,
      σ.sysFork i = .ok (σ', wrapIsize child.pid) ∧ Forked σ σ' i process child := by
  rw [sysFork, hp]
  by_cases hroom : kernelHeapSize ≤ σ.processes.countP isSome
  · exact Or.inl (if_pos hroom)
  right
  simp only [if_neg hroom]
  let push := fun p : ProcessControlBlock =>
    { p with children := p.children ++ [σ.processes.length] }
  let child : ProcessControlBlock :=
    { pid := σ.pidAllocator.alloc.1, isZombie := false, memory := process.memory
      parent := some i, children := [], exitCode := 0, signals := 0 }
  refine ⟨_, child, rfl, ?_⟩
  have hlen : (σ.update i push).processes.length = σ.processes.length := by simp
  have hlen' : ((σ.update i push).processes ++ [some child]).length = σ.processes.length + 1 := by
    simp
  have hpids : (σ.update i push).pids = σ.pids := pids_update i push fun _ => rfl
  -- the new state has the cells of `σ.update i push` and a new one
  refine ⟨fun k => ?_, hlen', rfl, rfl, rfl, h.owns.alloc_notMem, fun pid k => ?_, ?_,
    h.alloc_current_le hroom, fun k => ?_⟩
  · rw [get_append (show _ = (σ.update i push).processes ++ [some child] from rfl), hlen,
      get_update]
    by_cases hk : i = k
    · rw [if_pos hk, if_pos hk.symm, ← hk, hp]
      rfl
    · rw [if_neg hk, if_neg (Ne.symm hk)]
  · exact mem_insertIntoPid2process
  · rw [pids_append (show _ = (σ.update i push).processes ++ [some child] from rfl), hpids]
    exact h.owns.alloc.congr fun id => by simp [count_cons, child]
  · rw [childRefs_append (show _ = (σ.update i push).processes ++ [some child] from rfl)]
    have hk := count_childRefs_update hp push k
    have hchildren : (push process).children = process.children ++ [σ.processes.length] := rfl
    rw [hchildren, count_append] at hk
    rw [show child.children = [] from rfl, append_nil]
    omega

end RCore.Task.ProcessTree
