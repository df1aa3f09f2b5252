import RCore.Mm.KernelSpace
import RCore.Task.Id

/-!
# Kernel stacks

Every thread has a kernel stack below the trampoline in the space of the kernel, at a
position that follows from its identifier; a page is left free under each.  The stacks
keep apart in every run, but the identifier of a dropped stack is not given back.
-/

namespace RCore.Task

open RCore.Mm RCore.Lib.Outcome List Option
open VirtAddr (ofUsize floor ofUsize_lt ofUsize_eq ceil toVirtPageNum toVirtPageNum_mul)

/-! ## The model -/

def kernelStackSize : Nat := 4096 * 2

/-- Bottom and top of a kernel stack. -/
def kernelStackPosition (kstackId : Nat) : Nat × Nat :=
  let top := (trampoline + 2 ^ 64 - kstackId * (kernelStackSize + pageSize) % 2 ^ 64) % 2 ^ 64
  let bottom := (top + 2 ^ 64 - kernelStackSize) % 2 ^ 64
  (bottom, top)

/-- `KSTACK_ALLOCATOR`, `KERNEL_SPACE` and the physical memory. -/
structure StackState where
  kstackAllocator : RecycleAllocator
  kernelSpace : MemorySet
  mem : PhysMem

namespace StackState

def kstackAlloc (k : StackState) : Option (Nat × StackState) := do
  let (kstackId, kstackAllocator) := k.kstackAllocator.alloc
  let (kstackBottom, kstackTop) := kernelStackPosition kstackId
  let (kernelSpace, mem) ← k.kernelSpace.insertFramedArea k.mem (VirtAddr.ofUsize kstackBottom)
    (VirtAddr.ofUsize kstackTop) (MapPermission.R ||| MapPermission.W)
  some (kstackId, ⟨kstackAllocator, kernelSpace, mem⟩)

/-- `drop` of `KernelStack`. -/
def dropKernelStack (k : StackState) (kstackId : Nat) : Option StackState := do
  let (kernelStackBottom, _) := kernelStackPosition kstackId
  let kernelStackBottomVa := VirtAddr.ofUsize kernelStackBottom
  let startVpn ← VirtAddr.toVirtPageNum kernelStackBottomVa
  let (kernelSpace, mem) ← k.kernelSpace.removeAreaWithStartVpn k.mem startVpn
  some { k with kernelSpace := kernelSpace, mem := mem }

/-- The page table of the kernel has a valid entry for the page. -/
def Valid (k : StackState) (vpn : Nat) : Prop :=
  ∃ pte, k.kernelSpace.translate k.mem.bytes vpn = some pte ∧ pte.isValid = true

end StackState

/-! ## Runs -/

/-- What has happened to the kernel stacks so far. -/
structure StackHistory where
  /-- The stacks that have not been dropped. -/
  live : List Nat
  /-- The largest number of stacks that were live at once. -/
  peak : Nat
  /-- How often a stack was dropped. -/
  dropped : Nat
  /-- The frames that the space of the kernel had at the start. -/
  bootFrames : Nat

variable {id : Nat}

namespace StackHistory

def boot (bootFrames : Nat) : StackHistory := ⟨[], 0, 0, bootFrames⟩

def alloc (h : StackHistory) (id : Nat) : StackHistory :=
  { h with live := h.live ++ [id], peak := max h.peak (h.live.length + 1) }

def drop (h : StackHistory) (id : Nat) : StackHistory :=
  { h with live := h.live.erase id, dropped := h.dropped + 1 }

/-- The number of stacks that were ever allocated. -/
def total (h : StackHistory) : Nat := h.live.length + h.dropped

theorem total_alloc (h : StackHistory) (id : Nat) : (h.alloc id).total = h.total + 1 := by
  simp only [total, alloc, length_append, length_singleton]
  omega

theorem total_drop {h : StackHistory} (hid : id ∈ h.live) : (h.drop id).total = h.total := by
  have := length_pos_of_mem hid
  simp only [total, drop, length_erase_of_mem hid]
  omega

end StackHistory

/-- Stacks are allocated and dropped in any order; in between the rest of the system uses the
memory, but not the frames of the kernel's page table, and the frames that it owns. -/
inductive KernelReaches (image : KernelImage) : StackState → StackHistory → Prop
  | boot {space : MemorySet} {mem mem' : PhysMem} {rest : List Nat}
      (howns : mem.allocator.Owns image.low image.high rest)
      (hnew : MemorySet.newKernel image mem = some (space, mem')) :
      KernelReaches image ⟨.new, space, mem'⟩ (.boot space.frames.length)
  | alloc {k k' : StackState} {h : StackHistory} {id : Nat} (hreach : KernelReaches image k h)
      (halloc : k.kstackAlloc = some (id, k')) : KernelReaches image k' (h.alloc id)
  | drop {k k' : StackState} {h : StackHistory} {id : Nat} (hreach : KernelReaches image k h)
      (hlive : id ∈ h.live) (hdrop : k.dropKernelStack id = some k') :
      KernelReaches image k' (h.drop id)
  | other {k : StackState} {h : StackHistory} {mem : PhysMem} {rest : List Nat}
      (hreach : KernelReaches image k h)
      (hsame : ∀ x, x / 4096 ∈ k.kernelSpace.pageTable.frames → mem.bytes x = k.mem.bytes x)
      (howns : mem.allocator.Owns image.low image.high (k.kernelSpace.frames ++ rest)) :
      KernelReaches image { k with mem := mem } h

/-! ## Positions -/

/-- First page of a kernel stack and the page behind it. -/
def stackPages (id : Nat) : Nat × Nat :=
  (VirtAddr.floor (VirtAddr.ofUsize (kernelStackPosition id).1),
    VirtAddr.ceil (VirtAddr.ofUsize (kernelStackPosition id).2))

/-- The page directly below a kernel stack. -/
def guardPage (id : Nat) : Nat := (stackPages id).1 - 1

/-- The first stack that would lie on the physical memory. -/
def maxStacks : Nat := 44563797

theorem ofUsize_kernelStackPosition (hid : 3 * id + 2 ≤ trampolineVpn) :
    ofUsize (kernelStackPosition id).1 = 4096 * (trampolineVpn - 3 * id - 2) ∧
      ofUsize (kernelStackPosition id).2 = 4096 * (trampolineVpn - 3 * id) := by
  rw [trampolineVpn] at hid
  simp only [ofUsize_eq, kernelStackPosition, trampoline, kernelStackSize, pageSize, trampolineVpn]
  omega

theorem stackPages_eq_of_fits (hid : 3 * id + 2 ≤ trampolineVpn) :
    stackPages id = (trampolineVpn - 3 * id - 2, trampolineVpn - 3 * id) := by
  obtain ⟨hbottom, htop⟩ := ofUsize_kernelStackPosition hid
  rw [stackPages, hbottom, htop, floor, ceil, pageFloor_eq, pageCeil_eq]
  · rw [Prod.mk.injEq]
    omega
  · rw [trampolineVpn]
    omega

theorem fits_of_le_maxStacks (hid : id ≤ maxStacks) : 3 * id + 2 ≤ trampolineVpn := by
  rw [maxStacks] at hid
  rw [trampolineVpn]
  omega

theorem stackPages_eq (hid : id ≤ maxStacks) :
    stackPages id = (trampolineVpn - 3 * id - 2, trampolineVpn - 3 * id) :=
  stackPages_eq_of_fits (fits_of_le_maxStacks hid)

theorem stackPages_size (hid : id ≤ maxStacks) : (stackPages id).1 + 2 = (stackPages id).2 := by
  rw [stackPages_eq hid, trampolineVpn]
  rw [maxStacks] at hid
  omega

theorem new_stack_area (hid : id ≤ maxStacks) (perm : MapPermission) :
    MapArea.new (ofUsize (kernelStackPosition id).1)
      (ofUsize (kernelStackPosition id).2) .framed perm =
      some ⟨(stackPages id).1, (stackPages id).2, [], .framed, perm⟩ := by
  have htwo := stackPages_size hid
  exact if_pos (show (stackPages id).1 ≤ (stackPages id).2 by omega)

theorem toVirtPageNum_stack (hid : 3 * id + 2 ≤ trampolineVpn) :
    toVirtPageNum (ofUsize (kernelStackPosition id).1) =
      some (stackPages id).1 := by
  rw [stackPages_eq_of_fits hid, (ofUsize_kernelStackPosition hid).1, toVirtPageNum_mul]

theorem memoryEndVpn_le_guardPage (hid : id < maxStacks) : memoryEndVpn ≤ guardPage id := by
  rw [guardPage, stackPages_eq (Nat.le_of_lt hid), memoryEndVpn, trampolineVpn]
  rw [maxStacks] at hid
  omega

theorem stackPages_apart {id' : Nat} (hid : id < maxStacks) (hid' : id' < maxStacks)
    (hne : id ≠ id') :
    (stackPages id).2 < (stackPages id').1 ∨ (stackPages id').2 < (stackPages id).1 := by
  rw [stackPages_eq (Nat.le_of_lt hid), stackPages_eq (Nat.le_of_lt hid'), trampolineVpn]
  rw [maxStacks] at hid hid'
  omega

/-! ## The invariant -/

/-- The stacks are the framed areas of the kernel's space, at the positions of the live
identifiers, and no identifier is ever recycled. -/
structure StacksInv (image : KernelImage) (k : StackState) (h : StackHistory) (fixed kstacks : List MapArea)
    (rest : List Nat) : Prop where
  space : KernelInv image.toLayout fixed kstacks k.kernelSpace k.mem rest
  fixed_end : ∀ area ∈ fixed, area.endVpn ≤ memoryEndVpn
  fixed_last : ∃ area ∈ fixed, area.Covers (memoryEndVpn - 1)
  stacks_eq : kstacks.map (fun area => (area.startVpn, area.endVpn)) = h.live.map stackPages
  recycled : k.kstackAllocator.recycled = []
  current : k.kstackAllocator.current = h.total
  total_le : h.total ≤ maxStacks
  live_lt : ∀ id ∈ h.live, id < h.total
  nodup : h.live.Nodup
  peak_le : h.peak ≤ h.total
  length_le : h.live.length ≤ h.peak
  frames_le : k.kernelSpace.frames.length ≤ h.bootFrames + 6 * h.total

namespace StacksInv

variable {image : KernelImage} {k k' : StackState} {h : StackHistory} {fixed kstacks : List MapArea}
  {rest : List Nat} {id : Nat}

theorem lt_maxStacks (hinv : StacksInv image k h fixed kstacks rest) (hid : id ∈ h.live) :
    id < maxStacks :=
  Nat.lt_of_lt_of_le (hinv.live_lt id hid) hinv.total_le

theorem alloc_eq (hinv : StacksInv image k h fixed kstacks rest) :
    k.kstackAllocator.alloc = (h.total, ⟨h.total + 1, []⟩) := by
  rw [RecycleAllocator.alloc, hinv.recycled, hinv.current]

theorem boot {space : MemorySet} {mem mem' : PhysMem}
    (howns : mem.allocator.Owns image.low image.high rest)
    (hnew : MemorySet.newKernel image mem = some (space, mem')) :
    ∃ fixed, StacksInv image ⟨.new, space, mem'⟩ (.boot space.frames.length) fixed [] rest := by
  obtain ⟨fixed, hspace, hend, hlast⟩ := MemorySet.newKernel_spec howns hnew
  exact ⟨fixed, hspace, hend, hlast, rfl, rfl, rfl, Nat.zero_le _, by simp [StackHistory.boot],
    nodup_nil, Nat.zero_le _, Nat.zero_le _, Nat.le_add_right _ _⟩

section

variable (hinv : StacksInv image k h fixed kstacks rest)
include hinv

theorem lt_of_free (hle : id ≤ maxStacks)
    (hfree : ∀ vpn, (stackPages id).1 ≤ vpn ∧ vpn < (stackPages id).2 →
      mappingOver (fixedMapping image.toLayout fixed) kstacks vpn = none) : id < maxStacks := by
  refine Nat.lt_of_le_of_ne hle fun hmax => ?_
  obtain ⟨last, hmem, hcovers⟩ := hinv.fixed_last
  have hnone := hfree (memoryEndVpn - 1) (by
    rw [stackPages_eq hle, hmax]
    decide)
  exact (fixedMapping_eq_none.mp (hinv.space.placed.eq_none.mp hnone).1).2 last hmem hcovers

/-- An allocation gives the number of stacks that were allocated before. -/
theorem kstackAlloc_spec (halloc : k.kstackAlloc = some (id, k')) :
    id = h.total ∧ ∃ kstacks', StacksInv image k' (h.alloc id) fixed kstacks' rest := by
  rw [StackState.kstackAlloc, hinv.alloc_eq] at halloc
  simp only [do_eq_some_iff, Option.some.injEq, Prod.mk.injEq] at halloc
  obtain ⟨⟨space, mem⟩, hinsert, rfl, rfl⟩ := halloc
  obtain ⟨area, hsame, hfree, hspace, hframes⟩ :=
    (hinv.space.insert_yields (new_stack_area hinv.total_le _) (ofUsize_lt _)
      (ofUsize_lt _)).of_eq_some hinsert
  have hlt := hinv.lt_of_free hinv.total_le hfree
  refine ⟨rfl, kstacks ++ [area], hspace, hinv.fixed_end, hinv.fixed_last, ?_, rfl, ?_, ?_, ?_, ?_, ?_,
    ?_, ?_⟩
  · rw [hsame]
    simp [StackHistory.alloc, hinv.stacks_eq]
  · rw [StackHistory.total_alloc]
  · rw [StackHistory.total_alloc]
    exact hlt
  · intro other hother
    rw [StackHistory.total_alloc]
    rcases mem_append.mp hother with hother | hother
    · exact Nat.lt_succ_of_lt (hinv.live_lt other hother)
    · rw [mem_singleton.mp hother]
      exact Nat.lt_succ_self _
  · refine nodup_append.mpr ⟨hinv.nodup, nodup_singleton _, fun a ha b hb hab => ?_⟩
    have := hinv.live_lt a ha
    rw [mem_singleton] at hb
    omega
  · have hpeak := hinv.peak_le
    rw [StackHistory.total_alloc]
    simp only [StackHistory.alloc, StackHistory.total] at hpeak ⊢
    omega
  · simp only [StackHistory.alloc, length_append, length_singleton]
    exact Nat.le_max_right _ _
  · have hframes' := hinv.frames_le
    have hsize := stackPages_size hinv.total_le
    rw [StackHistory.total_alloc]
    simp only [StackHistory.alloc] at hframes ⊢
    omega

theorem exists_area (hid : id ∈ h.live) :
    ∃ area ∈ kstacks, (area.startVpn, area.endVpn) = stackPages id := by
  have hmem : stackPages id ∈ h.live.map stackPages := mem_map_of_mem hid
  rw [← hinv.stacks_eq] at hmem
  exact mem_map.mp hmem

theorem exists_id {area : MapArea} (harea : area ∈ kstacks) :
    ∃ id ∈ h.live, stackPages id = (area.startVpn, area.endVpn) := by
  have hmem : (area.startVpn, area.endVpn) ∈
      kstacks.map fun area => (area.startVpn, area.endVpn) := mem_map_of_mem harea
  rw [hinv.stacks_eq] at hmem
  exact mem_map.mp hmem

theorem endVpn_lt (hid : id < maxStacks) {area : MapArea} (harea : area ∈ fixed) :
    area.endVpn < (stackPages id).1 := by
  have hend := hinv.fixed_end area harea
  have hguard := memoryEndVpn_le_guardPage hid
  have hpos : 0 < memoryEndVpn := by decide
  rw [guardPage] at hguard
  omega

/-- A live stack can be dropped. -/
theorem dropKernelStack_spec (hid : id ∈ h.live) :
    ∃ k' kstacks', k.dropKernelStack id = some k' ∧
      StacksInv image k' (h.drop id) fixed kstacks' rest := by
  have hlt := hinv.lt_maxStacks hid
  obtain ⟨older, newer, hlive⟩ := append_of_mem hid
  have hold : id ∉ older := fun hmem =>
    (nodup_append.mp (hlive ▸ hinv.nodup)).2.2 id hmem id mem_cons_self rfl
  have herase : h.live.erase id = older ++ newer := by
    rw [hlive, erase_append_right _ hold, erase_cons_head]
  -- the areas split in the same way as the identifiers
  have hareas := hinv.stacks_eq
  rw [hlive, map_append, map_cons, map_eq_append_iff] at hareas
  obtain ⟨before, tail, hsplit, hbefore, htail⟩ := hareas
  obtain ⟨area, after, rfl, harea, hafter⟩ := map_eq_cons_iff.mp htail
  have hstart : area.startVpn = (stackPages id).1 := congrArg Prod.fst harea
  have hfirst : ∀ other ∈ fixed ++ before, other.startVpn ≠ area.startVpn := by
    intro other hother heq
    rcases mem_append.mp hother with hother | hother
    · have hle := (hinv.space.fixed_identical other hother).le
      have hend := hinv.endVpn_lt hlt hother
      omega
    · have hmem : (other.startVpn, other.endVpn) ∈ older.map stackPages := by
        rw [← hbefore]
        exact mem_map_of_mem hother
      obtain ⟨id', hid', hpages⟩ := mem_map.mp hmem
      have hlive' : id' ∈ h.live := by
        rw [hlive]
        exact mem_append_left _ hid'
      have hne : id' ≠ id := fun h => hold (h ▸ hid')
      have hapart := stackPages_apart (hinv.lt_maxStacks hlive') hlt hne
      have hsame : (stackPages id').1 = (stackPages id).1 := by rw [hpages, ← hstart, heq]
      have hsize := stackPages_size (Nat.le_of_lt (hinv.lt_maxStacks hlive'))
      have hsize' := stackPages_size (Nat.le_of_lt hlt)
      omega
  obtain ⟨space, mem, hremove, hspace, hframes⟩ := hinv.space.remove_eq hsplit hfirst
  refine ⟨{ k with kernelSpace := space, mem := mem }, before ++ after, ?_, hspace, hinv.fixed_end,
    hinv.fixed_last, ?_, hinv.recycled, ?_, ?_, ?_, hinv.nodup.erase id, ?_, ?_, ?_⟩
  · rw [hstart] at hremove
    simp only [StackState.dropKernelStack,
      toVirtPageNum_stack (fits_of_le_maxStacks (Nat.le_of_lt hlt)), do_some, hremove]
  · rw [StackHistory.drop, herase, map_append, map_append, hbefore, hafter]
  · rw [StackHistory.total_drop hid]
    exact hinv.current
  · rw [StackHistory.total_drop hid]
    exact hinv.total_le
  · rw [StackHistory.total_drop hid]
    exact fun other hother => hinv.live_lt other (mem_of_mem_erase hother)
  · rw [StackHistory.total_drop hid]
    exact hinv.peak_le
  · exact Nat.le_trans length_erase_le hinv.length_le
  · rw [StackHistory.total_drop hid]
    exact Nat.le_trans hframes hinv.frames_le

end

end StacksInv

theorem KernelReaches.inv {image : KernelImage} {k : StackState} {h : StackHistory}
    (hreach : KernelReaches image k h) :
    ∃ fixed kstacks rest, StacksInv image k h fixed kstacks rest := by
  induction hreach with
  | boot howns hnew =>
    obtain ⟨fixed, hinv⟩ := StacksInv.boot howns hnew
    exact ⟨fixed, [], _, hinv⟩
  | alloc _ halloc ih =>
    obtain ⟨fixed, kstacks, rest, hinv⟩ := ih
    obtain ⟨-, kstacks', hinv'⟩ := hinv.kstackAlloc_spec halloc
    exact ⟨fixed, kstacks', rest, hinv'⟩
  | @drop _ k' _ _ _ hlive hdrop ih =>
    obtain ⟨fixed, kstacks, rest, hinv⟩ := ih
    obtain ⟨k'', kstacks', hdrop', hinv'⟩ := hinv.dropKernelStack_spec hlive
    obtain rfl : k' = k'' := Option.some.inj (hdrop.symm.trans hdrop')
    exact ⟨fixed, kstacks', rest, hinv'⟩
  | other _ hsame howns ih =>
    obtain ⟨fixed, kstacks, _, hinv⟩ := ih
    exact ⟨fixed, kstacks, _, { hinv with space := hinv.space.other hsame howns }⟩

/-! ## The stacks in every run -/

/-- A page of a kernel stack. -/
def InStack (id vpn : Nat) : Prop := (stackPages id).1 ≤ vpn ∧ vpn < (stackPages id).2

/-- Each of the stacks is an area of the kernel's space and mapped, no two share a page, and
the page below each is not mapped. -/
structure StackState.KeepsStacks (k : StackState) (live : List Nat) : Prop where
  mapped : ∀ id ∈ live, (∃ area ∈ k.kernelSpace.areas, ∀ vpn, area.Covers vpn ↔ InStack id vpn) ∧
    ∀ vpn, InStack id vpn → k.Valid vpn
  apart : live.Pairwise fun id id' => ∀ vpn, ¬(InStack id vpn ∧ InStack id' vpn)
  guard : ∀ id ∈ live, ¬k.Valid (guardPage id)

theorem StacksInv.keepsStacks {image : KernelImage} {k : StackState} {h : StackHistory}
    {fixed kstacks : List MapArea} {rest : List Nat}
    (hinv : StacksInv image k h fixed kstacks rest) : k.KeepsStacks h.live where
  mapped id hid := by
    obtain ⟨area, harea, hpages⟩ := hinv.exists_area hid
    have hcovers : ∀ vpn, area.Covers vpn ↔ InStack id vpn := by
      intro vpn
      rw [InStack, ← hpages, MapArea.Covers]
    refine ⟨⟨area, ?_, hcovers⟩, fun vpn hvpn => ?_⟩
    · rw [hinv.space.areas]
      exact mem_append_right _ harea
    · have hlt : vpn < 2 ^ 27 := by
        have hbelow := hvpn.2
        rw [stackPages_eq (Nat.le_of_lt (hinv.lt_maxStacks hid)), trampolineVpn] at hbelow
        omega
      exact (hinv.space.isValid_iff hlt).mpr fun hfree => hfree.2 area harea ((hcovers vpn).mpr hvpn)
  apart := by
    refine hinv.nodup.imp_of_mem fun {id id'} hid hid' hne vpn hboth => ?_
    have hapart := stackPages_apart (hinv.lt_maxStacks hid) (hinv.lt_maxStacks hid') hne
    obtain ⟨⟨hlow, hhigh⟩, hlow', hhigh'⟩ := hboth
    omega
  guard id hid := by
    have hlt := hinv.lt_maxStacks hid
    have hmemory := memoryEndVpn_le_guardPage hlt
    have hpages := stackPages_eq (Nat.le_of_lt hlt)
    have hguard : guardPage id < trampolineVpn := by
      rw [guardPage, hpages, trampolineVpn]
      omega
    rw [StackState.Valid, hinv.space.isValid_iff (Nat.lt_of_lt_of_le hguard (by decide)), not_not]
    refine ⟨fixedMapping_eq_none.mpr ⟨Nat.ne_of_lt hguard, fun area harea hcovers => ?_⟩,
      fun area harea hcovers => ?_⟩
    · have hend := hinv.fixed_end area harea
      have hcovered := hcovers.2
      omega
    · obtain ⟨id', hid', hpages'⟩ := hinv.exists_id harea
      have hsize := stackPages_size (Nat.le_of_lt hlt)
      have hcovered : area.startVpn ≤ guardPage id ∧ guardPage id < area.endVpn := hcovers
      have hpos : 0 < memoryEndVpn := by decide
      rw [guardPage] at hcovered hmemory
      by_cases hsame : id' = id
      · rw [hsame, Prod.ext_iff] at hpages'
        simp only at hpages'
        omega
      · have hapart := stackPages_apart (hinv.lt_maxStacks hid') hlt hsame
        rw [hpages'] at hapart
        simp only at hapart
        omega

/-- In every run the live stacks keep apart, with a free page below each.  The identifier of a
new stack is below the largest number of stacks live at once exactly if no stack was dropped
before; until then that number bounds the addresses and the frames in use. -/
theorem kernel_stacks_bounded_iff {image : KernelImage} {k : StackState} {h : StackHistory}
    (hreach : KernelReaches image k h) :
    k.KeepsStacks h.live ∧
      (∀ id k', k.kstackAlloc = some (id, k') → (id < (h.alloc id).peak ↔ h.dropped = 0)) ∧
      (h.dropped = 0 → (∀ id ∈ h.live, trampolineVpn ≤ guardPage id + 3 * h.peak) ∧
        k.kernelSpace.frames.length ≤ h.bootFrames + 6 * h.peak) := by
  obtain ⟨fixed, kstacks, rest, hinv⟩ := hreach.inv
  have hpeak := hinv.peak_le
  have hlength := hinv.length_le
  rw [StackHistory.total] at hpeak
  refine ⟨hinv.keepsStacks, fun id k' halloc => ?_, fun hdropped => ⟨fun id hid => ?_, ?_⟩⟩
  · obtain ⟨rfl, -⟩ := hinv.kstackAlloc_spec halloc
    simp only [StackHistory.alloc, StackHistory.total]
    omega
  · have hlt := hinv.live_lt id hid
    rw [StackHistory.total] at hlt
    rw [guardPage, stackPages_eq (Nat.le_of_lt (hinv.lt_maxStacks hid))]
    omega
  · have hframes := hinv.frames_le
    rw [StackHistory.total] at hframes
    omega

/-- An image with a page of free memory and empty sections. -/
def smallImage : KernelImage where
  toLayout := smallLayout
  stext := 0x80200000
  etext := 0x80200000
  srodata := 0x80200000
  erodata := 0x80200000
  sdata := 0x80200000
  edata := 0x80200000
  sbssWithStack := 0x80200000
  ebss := 0x80200000
  ekernel := 0x807ff000
  etext_le := by decide
  erodata_le := by decide
  edata_le := by decide
  ebss_le := by decide
  ekernel_lt := by decide

/-- A memory whose frames are all free. -/
def smallMem : PhysMem := ⟨fun _ => 7, ⟨100, 200, []⟩⟩

theorem owns_smallMem : smallMem.allocator.Owns smallImage.low smallImage.high [] :=
  owns_smallLayout

theorem smallImage_stacks :
    ∃ k k' k'' b, KernelReaches smallImage k ⟨[0], 1, 0, b⟩ ∧ k.dropKernelStack 0 = some k' ∧
      k'.kstackAlloc = some (1, k'') := by
  have hfacts : ((MemorySet.newKernel smallImage smallMem).bind fun r =>
      (StackState.mk .new r.1 r.2).kstackAlloc.bind fun p =>
        (p.2.dropKernelStack 0).bind fun k => k.kstackAlloc.map fun q => (p.1, q.1)) =
      some (0, 1) := by
    decide +kernel
  obtain ⟨⟨space, mem⟩, hnew, hfacts⟩ := bind_eq_some_iff.mp hfacts
  obtain ⟨⟨id, k⟩, halloc, hfacts⟩ := bind_eq_some_iff.mp hfacts
  obtain ⟨k', hdrop, hfacts⟩ := bind_eq_some_iff.mp hfacts
  obtain ⟨⟨id', k''⟩, halloc', hids⟩ := map_eq_some_iff.mp hfacts
  cases hids
  exact ⟨k, k', k'', _, (KernelReaches.boot owns_smallMem hnew).alloc halloc, hdrop, halloc'⟩

/-- With one stack, and none dropped, the next identifier is below two. -/
theorem kernel_stacks_bounded_iff_one :
    ∃ k b, KernelReaches smallImage k ⟨[0], 1, 0, b⟩ ∧ k.KeepsStacks [0] ∧
      ∀ id k', k.kstackAlloc = some (id, k') → id < 2 := by
  obtain ⟨k, -, -, b, hreach, -⟩ := smallImage_stacks
  obtain ⟨hkeeps, hpeak, -⟩ := kernel_stacks_bounded_iff hreach
  exact ⟨k, b, hreach, hkeeps, fun id k' halloc => (hpeak id k' halloc).mpr rfl⟩

/-- The only stack is dropped, and the next one gets the identifier 1, although never more than
one stack is live. -/
theorem kernel_stack_id_leaks :
    ∃ k h k', KernelReaches smallImage k h ∧ h.live = [] ∧ k.kstackAlloc = some (1, k') ∧
      ¬1 < (h.alloc 1).peak := by
  obtain ⟨k, k', k'', b, hreach, hdrop, halloc⟩ := smallImage_stacks
  exact ⟨k', _, k'', hreach.drop List.mem_cons_self hdrop, rfl, halloc, Nat.lt_irrefl 1⟩

end RCore.Task
