import RCore.Mm.Isolation

/-!
# User resources of threads

Every thread has a user stack and a page for its trap context in the space of its
process; `TaskUserRes` inserts the two areas and removes them when it is dropped.
-/

namespace RCore.Task

open RCore.Mm RCore.Lib.Outcome List Option MapArea
open VirtAddr (ofUsize floor ofUsize_lt ofUsize_eq ofUsize_of_lt ceil toVirtPageNum)

variable {base tid : Nat} {L : Layout} {rest : List Nat}

/-- `process` is left out: the functions get the space of the process. -/
structure TaskUserRes where
  tid : Nat
  ustackBase : Nat

def trapCxBottomFromTid (tid : Nat) : Nat :=
  (trapContextBase + 2 ^ 64 - tid * pageSize % 2 ^ 64) % 2 ^ 64

def ustackBottomFromTid (ustackBase tid : Nat) : Nat :=
  usizeAdd ustackBase (tid * (pageSize + userStackSize) % 2 ^ 64)

theorem ustackBottomFromTid_eq (haligned : base % 4096 = 0)
    (hbelow : base / 4096 + 3 * tid + 2 < 2 ^ 27) :
    ustackBottomFromTid base tid = 4096 * (base / 4096 + 3 * tid) := by
  rw [ustackBottomFromTid, pageSize, userStackSize, Nat.mod_eq_of_lt (by omega),
    usizeAdd_eq (by omega)]
  omega

theorem ofUsize_trapCxBottomFromTid (htid : tid + 2 ≤ 2 ^ 27) :
    ofUsize (trapCxBottomFromTid tid) = 4096 * (2 ^ 27 - 2 - tid) := by
  rw [ofUsize_eq, trapCxBottomFromTid, trapContextBase, trampoline, pageSize]
  omega

namespace TaskUserRes

def allocUserRes (self : TaskUserRes) (memorySet : MemorySet) (s : PhysMem) :
    Option (MemorySet × PhysMem) := do
  let ustackBottom := ustackBottomFromTid self.ustackBase self.tid
  let ustackTop := usizeAdd ustackBottom userStackSize
  let (memorySet, s) ← memorySet.insertFramedArea s (VirtAddr.ofUsize ustackBottom)
    (VirtAddr.ofUsize ustackTop) (MapPermission.R ||| MapPermission.W ||| MapPermission.U)
  let trapCxBottom := trapCxBottomFromTid self.tid
  let trapCxTop := usizeAdd trapCxBottom pageSize
  memorySet.insertFramedArea s (VirtAddr.ofUsize trapCxBottom) (VirtAddr.ofUsize trapCxTop)
    (MapPermission.R ||| MapPermission.W)

def deallocUserRes (self : TaskUserRes) (memorySet : MemorySet) (s : PhysMem) :
    Option (MemorySet × PhysMem) := do
  let ustackBottomVa := VirtAddr.ofUsize (ustackBottomFromTid self.ustackBase self.tid)
  let ustackBottomVpn ← VirtAddr.toVirtPageNum ustackBottomVa
  let (memorySet, s) ← memorySet.removeAreaWithStartVpn s ustackBottomVpn
  let trapCxBottomVa := VirtAddr.ofUsize (trapCxBottomFromTid self.tid)
  let trapCxBottomVpn ← VirtAddr.toVirtPageNum trapCxBottomVa
  memorySet.removeAreaWithStartVpn s trapCxBottomVpn

/-- The frame of the trap context. -/
def trapCxPpn (self : TaskUserRes) (memorySet : MemorySet) (bytes : Memory) : Option Nat := do
  let trapCxBottomVa := VirtAddr.ofUsize (trapCxBottomFromTid self.tid)
  let trapCxBottomVpn ← VirtAddr.toVirtPageNum trapCxBottomVa
  let pte ← memorySet.translate bytes trapCxBottomVpn
  some pte.ppn

def ustackTop (self : TaskUserRes) : Nat :=
  usizeAdd (ustackBottomFromTid self.ustackBase self.tid) userStackSize

variable {self : TaskUserRes} {ms ms' : MemorySet} {s s' : PhysMem}

theorem allocUserRes_steps (h : self.allocUserRes ms s = some (ms', s')) :
    ∃ ms₁ s₁, SpaceStep ms s ms₁ s₁ ∧ SpaceStep ms₁ s₁ ms' s' := by
  simp only [allocUserRes, do_eq_some_iff] at h
  obtain ⟨⟨ms₁, s₁⟩, hustack, htrapCx⟩ := h
  exact ⟨ms₁, s₁, .insert (ofUsize_lt _) (ofUsize_lt _) hustack,
    .insert (ofUsize_lt _) (ofUsize_lt _) htrapCx⟩

theorem deallocUserRes_steps (h : self.deallocUserRes ms s = some (ms', s')) :
    ∃ ms₁ s₁, SpaceStep ms s ms₁ s₁ ∧ SpaceStep ms₁ s₁ ms' s' := by
  simp only [deallocUserRes, do_eq_some_iff] at h
  obtain ⟨_, -, ⟨ms₁, s₁⟩, hustack, _, -, htrapCx⟩ := h
  exact ⟨ms₁, s₁, .remove hustack, .remove htrapCx⟩

theorem allocUserRes_areas (hinv : SpaceInv L ms s rest)
    (h : self.allocUserRes ms s = some (ms', s')) : ∀ area ∈ ms.areas, area ∈ ms'.areas := by
  simp only [allocUserRes, do_eq_some_iff] at h
  obtain ⟨⟨ms₁, s₁⟩, hustack, htrapCx⟩ := h
  have hlt := ofUsize_lt
  obtain ⟨_, _, -, hpushed⟩ := hinv.insert_spec (hlt _) (hlt _) hustack
  obtain ⟨_, _, -, hpushed'⟩ := hpushed.inv.insert_spec (hlt _) (hlt _) htrapCx
  intro area hmem
  rw [hpushed'.areas, hpushed.areas]
  exact mem_append_left _ (mem_append_left _ hmem)

theorem deallocUserRes_areas (hinv : SpaceInv L ms s rest)
    (h : self.deallocUserRes ms s = some (ms', s')) {area : MapArea} (hmem : area ∈ ms.areas)
    (hustack : area.startVpn ≠ floor (ofUsize (ustackBottomFromTid self.ustackBase self.tid)))
    (htrapCx : area.startVpn ≠ floor (ofUsize (trapCxBottomFromTid self.tid))) :
    area ∈ ms'.areas := by
  have hstays : ∀ {ms ms' : MemorySet} {s s' : PhysMem} {startVpn : Nat},
      SpaceInv L ms s rest → ms.removeAreaWithStartVpn s startVpn = some (ms', s') →
      area ∈ ms.areas → area.startVpn ≠ startVpn → SpaceInv L ms' s' rest ∧ area ∈ ms'.areas := by
    intro ms ms' s s' startVpn hinv hremove hmem hne
    rcases hinv.remove_spec hremove with ⟨rfl, rfl⟩ | ⟨removed, hfind, hremoved⟩
    · exact ⟨hinv, hmem⟩
    · obtain ⟨before, after, hareas, hareas'⟩ := hremoved.areas
      have hstart : removed.startVpn = startVpn := by simpa using find?_some hfind
      refine ⟨hremoved.inv, ?_⟩
      rw [hareas] at hmem
      rw [hareas']
      rcases mem_append.mp hmem with hmem | hmem
      · exact mem_append_left _ hmem
      · rcases mem_cons.mp hmem with rfl | hmem
        · exact absurd hstart hne
        · exact mem_append_right _ hmem
  simp only [deallocUserRes, toVirtPageNum, do_eq_some_iff, ite_none_right_eq_some,
    Option.some.injEq] at h
  obtain ⟨_, ⟨-, rfl⟩, ⟨ms₁, s₁⟩, hfirst, _, ⟨-, rfl⟩, hsecond⟩ := h
  obtain ⟨hinv₁, hmem₁⟩ := hstays hinv hfirst hmem hustack
  exact (hstays hinv₁ hsecond hmem₁ htrapCx).2

/-- The area of the user stack before it is mapped, and that of the trap context. -/
def ustackArea (self : TaskUserRes) : Option MapArea :=
  MapArea.new (VirtAddr.ofUsize (ustackBottomFromTid self.ustackBase self.tid))
    (VirtAddr.ofUsize (usizeAdd (ustackBottomFromTid self.ustackBase self.tid) userStackSize))
    .framed (MapPermission.R ||| MapPermission.W ||| MapPermission.U)

def trapCxArea (self : TaskUserRes) : Option MapArea :=
  MapArea.new (VirtAddr.ofUsize (trapCxBottomFromTid self.tid))
    (VirtAddr.ofUsize (usizeAdd (trapCxBottomFromTid self.tid) pageSize)) .framed
    (MapPermission.R ||| MapPermission.W)

theorem ustackArea_eq (haligned : base % 4096 = 0) (hbelow : base / 4096 + 3 * tid + 2 < 2 ^ 27) :
    ustackArea ⟨tid, base⟩ =
      some ⟨base / 4096 + 3 * tid, base / 4096 + 3 * tid + 2, [], .framed,
        MapPermission.R ||| MapPermission.W ||| MapPermission.U⟩ := by
  have hbottom := ustackBottomFromTid_eq haligned hbelow
  rw [ustackArea, hbottom, userStackSize, usizeAdd_eq (by omega),
    ofUsize_of_lt (by omega), ofUsize_of_lt (by omega), new,
    floor, ceil, pageFloor_eq, pageCeil_eq (by omega),
    (by omega : 4096 * (base / 4096 + 3 * tid) / 4096 = base / 4096 + 3 * tid),
    (by omega : (4096 * (base / 4096 + 3 * tid) + 8192 + 4095) / 4096 = base / 4096 + 3 * tid + 2)]
  exact if_pos (by omega)

theorem trapCxArea_eq (htid : tid + 2 ≤ 2 ^ 27) : trapCxArea ⟨tid, base⟩ =
    some ⟨2 ^ 27 - 2 - tid, 2 ^ 27 - 2 - tid + 1, [], .framed,
      MapPermission.R ||| MapPermission.W⟩ := by
  have hbottom := ofUsize_trapCxBottomFromTid htid
  have htop : ofUsize (usizeAdd (trapCxBottomFromTid tid) pageSize) =
      4096 * (2 ^ 27 - 2 - tid + 1) := by
    rw [ofUsize_eq, usizeAdd, trapCxBottomFromTid, trapContextBase, trampoline, pageSize]
    omega
  rw [trapCxArea, hbottom, htop, new, floor, ceil, pageFloor_eq, pageCeil_eq (by omega),
    (by omega : 4096 * (2 ^ 27 - 2 - tid) / 4096 = 2 ^ 27 - 2 - tid),
    (by omega : (4096 * (2 ^ 27 - 2 - tid + 1) + 4095) / 4096 = 2 ^ 27 - 2 - tid + 1)]
  exact if_pos (by omega)

theorem allocUserRes_spec (hinv : SpaceInv L ms s rest)
    (h : self.allocUserRes ms s = some (ms', s')) :
    ∃ ustack trapCx, SpaceInv L ms' s' rest ∧ ms'.areas = ms.areas ++ [ustack, trapCx] ∧
      ms'.pageTable.rootPpn = ms.pageTable.rootPpn ∧
      self.ustackArea.map MapArea.range = some ustack.range ∧
      self.trapCxArea.map MapArea.range = some trapCx.range := by
  simp only [allocUserRes, do_eq_some_iff] at h
  obtain ⟨⟨ms₁, s₁⟩, hustack, htrapCx⟩ := h
  have hlt := ofUsize_lt
  obtain ⟨area, ustack, hnew, hpushed⟩ := hinv.insert_spec (hlt _) (hlt _) hustack
  obtain ⟨area', trapCx, hnew', hpushed'⟩ := hpushed.inv.insert_spec (hlt _) (hlt _) htrapCx
  refine ⟨ustack, trapCx, hpushed'.inv, ?_, hpushed'.root.trans hpushed.root, ?_, ?_⟩
  · rw [hpushed'.areas, hpushed.areas, append_assoc]
    rfl
  · rw [ustackArea, hnew, hpushed.same]
    rfl
  · rw [trapCxArea, hnew', hpushed'.same]
    rfl

theorem ustackArea_range {range : Nat × Nat × MapPermission}
    (haligned : ustackBottomFromTid self.ustackBase self.tid % 4096 = 0)
    (h : self.ustackArea.map MapArea.range = some range) :
    ofUsize (ustackBottomFromTid self.ustackBase self.tid) + 8192 < 2 ^ 39 ∧
      range = (ofUsize (ustackBottomFromTid self.ustackBase self.tid) / 4096,
        ofUsize (ustackBottomFromTid self.ustackBase self.tid) / 4096 + 2,
        MapPermission.R ||| MapPermission.W ||| MapPermission.U) := by
  obtain ⟨area, hnew, rfl⟩ := map_eq_some_iff.mp h
  obtain ⟨rfl, hle⟩ := new_eq_some hnew (ofUsize_lt _)
  simp only [MapArea.range, Prod.mk.injEq, true_and, and_true]
  simp only [ofUsize_eq, usizeAdd, userStackSize] at hle ⊢
  omega

theorem trapCxArea_range {range : Nat × Nat × MapPermission}
    (h : self.trapCxArea.map MapArea.range = some range) :
    range = (ofUsize (trapCxBottomFromTid self.tid) / 4096,
      ofUsize (trapCxBottomFromTid self.tid) / 4096 + 1,
      MapPermission.R ||| MapPermission.W) := by
  obtain ⟨area, hnew, rfl⟩ := map_eq_some_iff.mp h
  obtain ⟨rfl, hle⟩ := new_eq_some hnew (ofUsize_lt _)
  simp only [MapArea.range, Prod.mk.injEq, true_and, and_true]
  simp only [ofUsize_eq, usizeAdd, trapCxBottomFromTid, trapContextBase, trampoline,
    pageSize] at hle ⊢
  omega

/-- The areas are added if their pages are free and there are frames. -/
theorem allocUserRes_returns {ustack trapCx : MapArea} (h : SpaceInv L ms s rest)
    (hustack : self.ustackArea = some ustack) (htrapCx : self.trapCxArea = some trapCx)
    (hfree : ∀ vpn, ustack.Covers vpn ∨ trapCx.Covers vpn → vpn ≠ trampolineVpn ∧
      ∀ other ∈ ms.areas, ¬other.Covers vpn) (hapart : Apart ustack trapCx)
    (henough : 3 * (ustack.endVpn - ustack.startVpn) + 3 * (trapCx.endVpn - trapCx.startVpn) ≤
      s.allocator.available) :
    ∃ ms' s' ustack' trapCx', self.allocUserRes ms s = some (ms', s') ∧
      SpaceInv L ms' s' rest ∧ ms'.areas = ms.areas ++ [ustack', trapCx'] ∧
      ustack'.range = ustack.range ∧ trapCx'.range = trapCx.range ∧
      s.allocator.available ≤ s'.allocator.available +
        (3 * (ustack.endVpn - ustack.startVpn) + 3 * (trapCx.endVpn - trapCx.startVpn)) := by
  have hlt := ofUsize_lt
  obtain ⟨ms₁, s₁, hfirst⟩ := h.insert_of_available hustack (hlt _) (hlt _)
    (fun vpn hcovers => hfree vpn (.inl hcovers)) (by omega)
  obtain ⟨ustack', hpushed⟩ := (h.insert_yields hustack (hlt _) (hlt _)).of_eq_some hfirst
  simp only at hpushed
  have hrange : ustack'.range = ustack.range := by rw [hpushed.same]; rfl
  have hsome := Pushed.available_le h hpushed
  obtain ⟨ms₂, s₂, hsecond⟩ := hpushed.inv.insert_of_available htrapCx (hlt _) (hlt _)
    (fun vpn hcovers => by
      obtain ⟨hne, hnot⟩ := hfree vpn (.inr hcovers)
      refine ⟨hne, fun other hother => ?_⟩
      rw [hpushed.areas] at hother
      rcases mem_append.mp hother with hother | hother
      · exact hnot other hother
      · rw [mem_singleton.mp hother, covers_congr hrange]
        exact fun hboth => hapart vpn hboth hcovers)
    (by omega)
  obtain ⟨trapCx', hpushed₂⟩ :=
    (hpushed.inv.insert_yields htrapCx (hlt _) (hlt _)).of_eq_some hsecond
  simp only at hpushed₂
  have hmore := Pushed.available_le hpushed.inv hpushed₂
  refine ⟨ms₂, s₂, ustack', trapCx', ?_, hpushed₂.inv, ?_, hrange, ?_, by omega⟩
  · simp only [allocUserRes, bind_eq_bind]
    rw [hfirst]
    exact hsecond
  · rw [hpushed₂.areas, hpushed.areas, append_assoc]
    rfl
  · rw [hpushed₂.same]
    rfl

end TaskUserRes

end RCore.Task
