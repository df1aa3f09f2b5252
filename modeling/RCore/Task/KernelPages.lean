import Mathlib.Data.List.Forall2
import RCore.Task.KernelStack

/-!
# The pages of the kernel

The sections of the kernel, the free memory and the device registers are mapped to themselves
with the permissions of their sections, and stay so while kernel stacks come and go: no page is
ever both writable and executable.
-/

namespace RCore.Mm

open RCore.Lib.Outcome List MemorySet Option Yields

/-! ## The model -/

namespace PageTableEntry

def writable (self : PageTableEntry) : Bool := self.flags &&& PTEFlags.W != 0

def executable (self : PageTableEntry) : Bool := self.flags &&& PTEFlags.X != 0

end PageTableEntry

/-- The symbols of the linker script. -/
structure KernelSymbols where
  stext : Nat
  etext : Nat
  srodata : Nat
  erodata : Nat
  sdata : Nat
  edata : Nat
  sbssWithStack : Nat
  ebss : Nat
  ekernel : Nat

namespace KernelSymbols

/-- The ranges that `new_kernel` maps, for any device registers. -/
def ranges (k : KernelSymbols) (mmio : List (Nat × Nat)) : List (Nat × Nat × MapPermission) :=
  [(k.stext, k.etext, MapPermission.R ||| MapPermission.X),
    (k.srodata, k.erodata, MapPermission.R),
    (k.sdata, k.edata, MapPermission.R ||| MapPermission.W),
    (k.sbssWithStack, k.ebss, MapPermission.R ||| MapPermission.W),
    (k.ekernel, memoryEnd, MapPermission.R ||| MapPermission.W)] ++
  mmio.map fun pair => (pair.1, usizeAdd pair.1 pair.2, MapPermission.R ||| MapPermission.W)

def boundaries (k : KernelSymbols) : List Nat :=
  [k.stext, k.etext, k.srodata, k.erodata, k.sdata, k.edata, k.sbssWithStack, k.ebss, k.ekernel]

end KernelSymbols

/-- `new_kernel` for given symbols and device registers. -/
def MemorySet.newKernelAt (L : Layout) (symbols : KernelSymbols) (mmio : List (Nat × Nat))
    (s : PhysMem) : Option (MemorySet × PhysMem) := do
  let (self, s) ← newWithTrampoline L s
  self.pushSections s (symbols.ranges mmio)

/-- An address of device registers. -/
def InRegisters (pair : Nat × Nat) (x : Nat) : Prop := pair.1 ≤ x ∧ x < pair.1 + pair.2

/-- A kernel whose sections follow each other at page boundaries, with the device registers
outside of the memory and below the page of the trampoline. -/
structure KernelConfig extends Layout, KernelSymbols where
  mmio : List (Nat × Nat)
  boundaries_aligned : ∀ x ∈ toKernelSymbols.boundaries, x % 4096 = 0
  stext_le : stext ≤ etext
  etext_eq : etext = srodata
  srodata_le : srodata ≤ erodata
  erodata_eq : erodata = sdata
  sdata_le : sdata ≤ edata
  edata_eq : edata = sbssWithStack
  sbssWithStack_le : sbssWithStack ≤ ebss
  ebss_eq : ebss = ekernel
  ekernel_le : ekernel ≤ memoryEnd
  mmio_aligned : ∀ pair ∈ mmio, pair.1 % 4096 = 0 ∧ pair.2 % 4096 = 0
  mmio_below : ∀ pair ∈ mmio, pair.1 + pair.2 ≤ 4096 * trampolineVpn
  mmio_apart : mmio.Pairwise fun pair other => ∀ x, InRegisters pair x → ¬InRegisters other x
  mmio_outside : ∀ pair ∈ mmio, ∀ x, stext ≤ x → x < memoryEnd → ¬InRegisters pair x

/-! ## The areas of the ranges -/

/-- A range of whole pages below the trampoline. -/
structure WholePages (range : Nat × Nat × MapPermission) : Prop where
  start_aligned : range.1 % 4096 = 0
  stop_aligned : range.2.1 % 4096 = 0
  le : range.1 ≤ range.2.1
  below : range.2.1 ≤ 4096 * trampolineVpn

def areaOf (range : Nat × Nat × MapPermission) : MapArea where
  startVpn := range.1 / 4096
  endVpn := range.2.1 / 4096
  dataFrames := []
  mapType := .identical
  mapPerm := range.2.2

/-- No address is in both ranges. -/
def RangesApart (range other : Nat × Nat × MapPermission) : Prop :=
  ∀ x, range.1 ≤ x → x < range.2.1 → other.1 ≤ x → ¬x < other.2.1

variable {range other : Nat × Nat × MapPermission} {vpn : Nat}

theorem RangesApart.of_le (h : range.2.1 ≤ other.1) : RangesApart range other := by
  intro x _ hlt hle _
  omega

theorem WholePages.isSection (h : WholePages range) : IsSection range (areaOf range) := by
  obtain ⟨hstart, hstop, hle, hbelow⟩ := h
  rw [trampolineVpn] at hbelow
  rw [IsSection, VirtAddr.ofUsize_of_lt (by omega), VirtAddr.ofUsize_of_lt (by omega), MapArea.new,
    VirtAddr.floor, VirtAddr.ceil, pageFloor_eq, pageCeil_eq (by omega)]
  simp only [if_pos (by omega : range.1 / 4096 ≤ (range.2.1 + 4095) / 4096), areaOf]
  congr 2
  omega

theorem WholePages.covers_iff (h : WholePages range) :
    (areaOf range).Covers vpn ↔ range.1 ≤ 4096 * vpn ∧ 4096 * vpn < range.2.1 := by
  have hstart := h.start_aligned
  have hstop := h.stop_aligned
  change range.1 / 4096 ≤ vpn ∧ vpn < range.2.1 / 4096 ↔ _
  omega

theorem WholePages.apart (h : WholePages range) (h' : WholePages other)
    (hapart : RangesApart range other) : Apart (areaOf range) (areaOf other) := by
  intro vpn hcovers hcovers'
  rw [h.covers_iff] at hcovers
  rw [h'.covers_iff] at hcovers'
  exact hapart _ hcovers.1 hcovers.2 hcovers'.1 hcovers'.2

namespace KernelConfig

variable (K : KernelConfig)

def ranges : List (Nat × Nat × MapPermission) := K.toKernelSymbols.ranges K.mmio

/-- The areas of the sections, the free memory and the device registers. -/
def areas : List MapArea := K.ranges.map areaOf

theorem usizeAdd_mmio {pair : Nat × Nat} (hpair : pair ∈ K.mmio) :
    usizeAdd pair.1 pair.2 = pair.1 + pair.2 := by
  have hbelow := K.mmio_below pair hpair
  rw [trampolineVpn] at hbelow
  exact Nat.mod_eq_of_lt (by omega)

theorem wholePages : ∀ range ∈ K.ranges, WholePages range := by
  have haligned := K.boundaries_aligned
  have h₁ := K.stext_le
  have h₂ := K.etext_eq
  have h₃ := K.srodata_le
  have h₄ := K.erodata_eq
  have h₅ := K.sdata_le
  have h₆ := K.edata_eq
  have h₇ := K.sbssWithStack_le
  have h₈ := K.ebss_eq
  have h₉ := K.ekernel_le
  have hend : memoryEnd % 4096 = 0 ∧ memoryEnd ≤ 4096 * trampolineVpn := by decide
  simp only [KernelSymbols.boundaries, mem_cons, not_mem_nil, or_false,
    forall_eq_or_imp, forall_eq] at haligned
  obtain ⟨a₁, a₂, a₃, a₄, a₅, a₆, a₇, a₈, a₉⟩ := haligned
  intro range hrange
  rcases List.mem_append.mp hrange with hrange | hrange
  · simp only [mem_cons, not_mem_nil, or_false] at hrange
    rcases hrange with rfl | rfl | rfl | rfl | rfl
    · exact ⟨a₁, a₂, h₁, by simp only; omega⟩
    · exact ⟨a₃, a₄, h₃, by simp only; omega⟩
    · exact ⟨a₅, a₆, h₅, by simp only; omega⟩
    · exact ⟨a₇, a₈, h₇, by simp only; omega⟩
    · exact ⟨a₉, hend.1, h₉, hend.2⟩
  · obtain ⟨pair, hpair, rfl⟩ := mem_map.mp hrange
    obtain ⟨hstart, hsize⟩ := K.mmio_aligned pair hpair
    have hbelow := K.mmio_below pair hpair
    rw [K.usizeAdd_mmio hpair]
    exact ⟨hstart, by simp only; omega, by simp only; omega, hbelow⟩

theorem ranges_apart : K.ranges.Pairwise RangesApart := by
  have h₁ := K.stext_le
  have h₂ := K.etext_eq
  have h₃ := K.srodata_le
  have h₄ := K.erodata_eq
  have h₅ := K.sdata_le
  have h₆ := K.edata_eq
  have h₇ := K.sbssWithStack_le
  have h₈ := K.ebss_eq
  have h₉ := K.ekernel_le
  refine pairwise_append.mpr ⟨?_, ?_, fun range hrange other hother => ?_⟩
  · refine Pairwise.imp (fun h => RangesApart.of_le h) ?_
    simp only [pairwise_cons, mem_cons, not_mem_nil, or_false, forall_eq_or_imp,
      forall_eq, Pairwise.nil, and_true, IsEmpty.forall_iff, implies_true]
    omega
  · refine pairwise_map.mpr (K.mmio_apart.imp_of_mem fun hpair hother hapart x => ?_)
    rw [K.usizeAdd_mmio hpair, K.usizeAdd_mmio hother]
    exact fun hle hlt hle' hlt' => hapart x ⟨hle, hlt⟩ ⟨hle', hlt'⟩
  · obtain ⟨pair, hpair, rfl⟩ := mem_map.mp hother
    intro x hle hlt hle' hlt'
    rw [K.usizeAdd_mmio hpair] at hlt'
    -- every range of the first kind is between `stext` and the end of the memory
    have hin : K.stext ≤ range.1 ∧ range.2.1 ≤ memoryEnd := by
      simp only [mem_cons, not_mem_nil, or_false] at hrange
      rcases hrange with rfl | rfl | rfl | rfl | rfl <;> simp only <;> omega
    exact K.mmio_outside pair hpair x (by omega) (by omega) ⟨hle', hlt'⟩

theorem areas_apart : K.areas.Pairwise Apart :=
  pairwise_map.mpr <| K.ranges_apart.imp_of_mem fun hrange hother hapart =>
    (K.wholePages _ hrange).apart (K.wholePages _ hother) hapart

theorem lt_trampolineVpn {range : Nat × Nat × MapPermission} (hrange : range ∈ K.ranges)
    (hcovers : (areaOf range).Covers vpn) : vpn < trampolineVpn := by
  have hbelow := (K.wholePages range hrange).below
  have hlt := ((K.wholePages range hrange).covers_iff.mp hcovers).2
  omega

end KernelConfig

/-! ## Entries of the ranges -/

section Fixed

variable {L : Layout} {fixed : List MapArea} {area : MapArea}

theorem fixedMapping_of_covers (hapart : fixed.Pairwise Apart) (hmem : area ∈ fixed)
    (hcovers : area.Covers vpn) (hne : vpn ≠ trampolineVpn) :
    fixedMapping L fixed vpn = some (vpn, area.mapPerm) := by
  have hfind : fixed.findSome? (·.identityEntry vpn) = some (vpn, area.mapPerm) := by
    induction fixed with
    | nil => cases hmem
    | cons first fixed ih =>
      obtain ⟨hfirst, hapart⟩ := pairwise_cons.mp hapart
      rcases mem_cons.mp hmem with rfl | hmem
      · rw [findSome?_cons, MapArea.identityEntry, if_pos hcovers]
      · have hnone : first.identityEntry vpn = none :=
          MapArea.identityEntry_eq_none.mpr fun hboth => hfirst area hmem vpn hboth hcovers
        rw [findSome?_cons, hnone]
        exact ih hapart hmem
  rw [fixedMapping, trampolineEntry_eq_none.mpr hne, none_or, hfind]

theorem fixedMapping_cases {e : Nat × PTEFlags} (h : fixedMapping L fixed vpn = some e) :
    e.2 = PTEFlags.R ||| PTEFlags.X ∨ ∃ area ∈ fixed, e = (vpn, area.mapPerm) := by
  rw [fixedMapping, Option.or_eq_some_iff] at h
  rcases h with h | ⟨-, h⟩
  · rw [Layout.trampolineEntry, ite_none_right_eq_some, Option.some.injEq] at h
    exact .inl (by rw [← h.2])
  · obtain ⟨area, hmem, hentry⟩ := List.exists_of_findSome?_eq_some h
    rw [MapArea.identityEntry, ite_none_right_eq_some, Option.some.injEq] at hentry
    exact .inr ⟨area, hmem, hentry.2.symm⟩

theorem fixedMapping_remove {before after : List MapArea} (hempty : area.endVpn ≤ area.startVpn) :
    fixedMapping L (before ++ area :: after) = fixedMapping L (before ++ after) := by
  funext vpn
  have hnone : area.identityEntry vpn = none := by
    rw [MapArea.identityEntry_eq_none, MapArea.Covers]
    omega
  simp only [fixedMapping, findSome?_append, findSome?_cons, hnone]

theorem KernelInv.remove_empty {framed before after : List MapArea} {ms : MemorySet} {s : PhysMem}
    {rest : List Nat} (h : KernelInv L (before ++ area :: after) framed ms s rest)
    (hempty : area.endVpn ≤ area.startVpn)
    (hfirst : ∀ other ∈ before, other.startVpn ≠ area.startVpn) :
    ∃ ms', ms.removeAreaWithStartVpn s area.startVpn = some (ms', s) ∧
      KernelInv L (before ++ after) framed ms' s rest := by
  have hident := h.fixed_identical area (by simp)
  have hareas : ms.areas = before ++ area :: (after ++ framed) := by
    rw [h.areas, append_assoc, cons_append]
  have hunmap : area.unmap ms.pageTable s = some ({ area with dataFrames := [] }, s) := by
    rw [MapArea.unmap, Nat.sub_eq_zero_of_le hempty, MapArea.unmapLoop, ← hident.empty]
  have hsub : ∀ other ∈ before ++ after, other ∈ before ++ area :: after := fun other hmem =>
    ((List.Sublist.refl before).append (List.sublist_cons_self area after)).subset hmem
  have hframes : frames ⟨ms.pageTable, before ++ (after ++ framed)⟩ = ms.frames := by
    simp [frames, dataFrames, hareas, MapArea.frames, hident.empty]
  refine ⟨⟨ms.pageTable, before ++ (after ++ framed)⟩,
    remove_of_unmap hareas hfirst hunmap, ?_, ?_, by simp,
    fun other hmem => h.fixed_identical other (hsub other hmem), h.complete, h.apart, ?_⟩
  · rw [← fixedMapping_remove hempty]
    exact h.table
  · rw [hframes]
    exact h.owns
  · rw [← fixedMapping_remove hempty]
    exact h.free

end Fixed

/-! ## The space that the kernel starts with -/

variable {K : KernelConfig} {s : PhysMem} {rest : List Nat}

theorem MemorySet.newKernelAt_yields (howns : s.allocator.Owns K.low K.high rest) :
    Yields (MemorySet.newKernelAt K.toLayout K.toKernelSymbols K.mmio s)
      (K.high < K.low + rest.length +
        (3 + 2 * (K.areas.map fun area => area.endVpn - area.startVpn).sum))
      fun r => KernelInv K.toLayout K.areas [] r.1 r.2 rest := by
  refine bind (mono (newWithTrampoline_yields howns) (by omega)
    fun _ _ hpost => hpost) ?_
  rintro ⟨ms, s₁⟩ - ⟨hinv, hareas, hlength, -⟩
  simp only at hinv hareas hlength
  have hsections : Forall₂ IsSection K.ranges K.areas :=
    forall₂_map_right_iff.mpr
      (forall₂_same.mpr fun range hrange => (K.wholePages range hrange).isSection)
  have htrampoline : ∀ area ∈ K.areas, ¬area.Covers trampolineVpn := by
    intro area hmem hcovers
    obtain ⟨range, hrange, rfl⟩ := mem_map.mp hmem
    exact Nat.lt_irrefl _ (K.lt_trampolineVpn hrange hcovers)
  exact mono ((hinv.kernelInv hareas).pushSections_yields hsections K.areas_apart htrampoline)
    (by omega) fun _ _ hpost => hpost.1

theorem KernelConfig.perm_cases {area : MapArea} (hmem : area ∈ K.areas) :
    area.mapPerm = MapPermission.R ||| MapPermission.X ∨ area.mapPerm = MapPermission.R ∨
      area.mapPerm = MapPermission.R ||| MapPermission.W := by
  obtain ⟨range, hrange, rfl⟩ := mem_map.mp hmem
  change range.2.2 = _ ∨ range.2.2 = _ ∨ range.2.2 = _
  rcases List.mem_append.mp hrange with hrange | hrange
  · simp only [mem_cons, not_mem_nil, or_false] at hrange
    rcases hrange with rfl | rfl | rfl | rfl | rfl <;> simp
  · obtain ⟨pair, -, rfl⟩ := mem_map.mp hrange
    exact .inr (.inr rfl)

end RCore.Mm

namespace RCore.Task

open RCore.Mm RCore.Lib.Outcome

/-! ## Runs -/

/-- A kernel with the identifiers of its stacks: stacks are allocated and dropped in any order,
and the rest of the system uses the memory but not the frames of the kernel's page table. -/
inductive KernelRun (K : KernelConfig) : StackState → List Nat → Prop
  | boot {space : MemorySet} {mem mem' : PhysMem} {rest : List Nat}
      (howns : mem.allocator.Owns K.low K.high rest)
      (hnew : MemorySet.newKernelAt K.toLayout K.toKernelSymbols K.mmio mem = some (space, mem')) :
      KernelRun K ⟨.new, space, mem'⟩ []
  | alloc {k k' : StackState} {live : List Nat} {id : Nat} (h : KernelRun K k live)
      (halloc : k.kstackAlloc = some (id, k')) : KernelRun K k' (live ++ [id])
  | drop {k k' : StackState} {live : List Nat} {id : Nat} (h : KernelRun K k live)
      (hlive : id ∈ live) (hdrop : k.dropKernelStack id = some k') : KernelRun K k' (live.erase id)
  | other {k : StackState} {live : List Nat} {mem : PhysMem} {rest : List Nat}
      (h : KernelRun K k live)
      (hsame : ∀ x, x / 4096 ∈ k.kernelSpace.pageTable.frames → mem.bytes x = k.mem.bytes x)
      (howns : mem.allocator.Owns K.low K.high (k.kernelSpace.frames ++ rest)) :
      KernelRun K { k with mem := mem } live

/-- The space maps what it mapped at the start and framed areas with `R` and `W`, among them one
for each stack. -/
structure PagesInv (K : KernelConfig) (k : StackState) (live : List Nat)
    (fixed framed : List MapArea) (rest : List Nat) : Prop where
  space : KernelInv K.toLayout fixed framed k.kernelSpace k.mem rest
  fixed_eq : fixedMapping K.toLayout fixed = fixedMapping K.toLayout K.areas
  perm : ∀ area ∈ framed, area.mapPerm = MapPermission.R ||| MapPermission.W
  area_of : ∀ id ∈ live, ∃ area ∈ framed, area.startVpn = (stackPages id).1 ∧
    area.startVpn < area.endVpn
  recycled : k.kstackAllocator.recycled = []
  lt_current : ∀ id ∈ live, id < k.kstackAllocator.current
  current_le : 3 * k.kstackAllocator.current ≤ trampolineVpn
  nodup : live.Nodup

namespace PagesInv

variable {K : KernelConfig} {k k' : StackState} {live : List Nat} {fixed framed : List MapArea}
  {rest : List Nat} {id : Nat}

theorem fits (h : PagesInv K k live fixed framed rest) (hid : id ∈ live) :
    3 * id + 2 ≤ trampolineVpn := by
  have hlt := h.lt_current id hid
  have hle := h.current_le
  omega

theorem kstackAlloc_wraps (hid : 3 * id = trampolineVpn - 1) (perm : MapPermission) :
    MapArea.new (VirtAddr.ofUsize (kernelStackPosition id).1)
      (VirtAddr.ofUsize (kernelStackPosition id).2) .framed perm = none := by
  rw [trampolineVpn] at hid
  obtain rfl : id = 44739242 := by omega
  rfl

theorem boot {space : MemorySet} {mem mem' : PhysMem}
    (howns : mem.allocator.Owns K.low K.high rest)
    (hnew : MemorySet.newKernelAt K.toLayout K.toKernelSymbols K.mmio mem = some (space, mem')) :
    PagesInv K ⟨.new, space, mem'⟩ [] K.areas [] rest where
  space := (MemorySet.newKernelAt_yields howns).of_eq_some hnew
  fixed_eq := rfl
  perm := by simp
  area_of := by simp
  recycled := rfl
  lt_current := by simp
  current_le := Nat.zero_le _
  nodup := List.nodup_nil

section

variable (h : PagesInv K k live fixed framed rest)
include h

theorem alloc (halloc : k.kstackAlloc = some (id, k')) :
    ∃ framed', PagesInv K k' (live ++ [id]) fixed framed' rest := by
  have hnext : k.kstackAllocator.alloc =
      (k.kstackAllocator.current, ⟨k.kstackAllocator.current + 1, []⟩) := by
    rw [RecycleAllocator.alloc, h.recycled]
  rw [StackState.kstackAlloc, hnext] at halloc
  simp only [do_eq_some_iff, Option.some.injEq, Prod.mk.injEq] at halloc
  obtain ⟨⟨space, mem⟩, hinsert, rfl, rfl⟩ := halloc
  have hle := h.current_le
  have hlt : 3 * (k.kstackAllocator.current + 1) ≤ trampolineVpn := by
    by_contra hgt
    have hwraps : 3 * k.kstackAllocator.current = trampolineVpn - 1 := by
      rw [trampolineVpn] at hle hgt ⊢
      omega
    rw [MemorySet.insertFramedArea, kstackAlloc_wraps hwraps] at hinsert
    cases hinsert
  obtain ⟨hstart, hend⟩ := ofUsize_kernelStackPosition
    (by omega : 3 * k.kstackAllocator.current + 2 ≤ trampolineVpn)
  have hpages := stackPages_eq_of_fits
    (by omega : 3 * k.kstackAllocator.current + 2 ≤ trampolineVpn)
  have hnew : MapArea.new (VirtAddr.ofUsize (kernelStackPosition k.kstackAllocator.current).1)
      (VirtAddr.ofUsize (kernelStackPosition k.kstackAllocator.current).2) .framed
      (MapPermission.R ||| MapPermission.W) =
      some ⟨(stackPages k.kstackAllocator.current).1, (stackPages k.kstackAllocator.current).2, [],
        .framed, MapPermission.R ||| MapPermission.W⟩ := by
    refine if_pos (show (stackPages _).1 ≤ (stackPages _).2 from ?_)
    rw [hpages]
    omega
  obtain ⟨area, hsame, -, hspace, -⟩ := (h.space.insert_yields hnew (VirtAddr.ofUsize_lt _)
    (VirtAddr.ofUsize_lt _)).of_eq_some hinsert
  refine ⟨framed ++ [area], hspace, h.fixed_eq, ?_, ?_, rfl, ?_, hlt, ?_⟩
  · intro other hother
    rcases List.mem_append.mp hother with hother | hother
    · exact h.perm other hother
    · rw [List.mem_singleton.mp hother, hsame]
  · intro other hother
    rcases List.mem_append.mp hother with hother | hother
    · obtain ⟨found, hmem, hfound⟩ := h.area_of other hother
      exact ⟨found, List.mem_append_left _ hmem, hfound⟩
    · rw [List.mem_singleton.mp hother]
      refine ⟨area, by simp, by rw [hsame], ?_⟩
      rw [hsame, hpages]
      simp only
      omega
  · intro other hother
    rcases List.mem_append.mp hother with hother | hother
    · exact Nat.lt_succ_of_lt (h.lt_current other hother)
    · rw [List.mem_singleton.mp hother]
      exact Nat.lt_succ_self _
  · refine List.nodup_append.mpr ⟨h.nodup, List.nodup_singleton _, fun a ha b hb hab => ?_⟩
    have hold := h.lt_current a ha
    rw [List.mem_singleton] at hb
    omega

theorem startVpn_ne (hid : id ∈ live) {id' : Nat} (hid' : id' ∈ live) (hne : id' ≠ id) :
    (stackPages id').1 ≠ (stackPages id).1 := by
  have hfits := h.fits hid
  have hfits' := h.fits hid'
  rw [stackPages_eq_of_fits hfits, stackPages_eq_of_fits hfits']
  simp only
  omega

theorem fixed_empty (hid : id ∈ live) {area : MapArea} (hmem : area ∈ fixed)
    (hstart : area.startVpn = (stackPages id).1) : area.endVpn ≤ area.startVpn := by
  obtain ⟨stack, hstack, hfirst, hpos⟩ := h.area_of id hid
  have hfree := h.space.free stack hstack stack.startVpn ⟨Nat.le_refl _, hpos⟩
  have hnot := (fixedMapping_eq_none.mp hfree).2 area hmem
  rw [MapArea.Covers] at hnot
  omega

theorem drop (hid : id ∈ live) (hdrop : k.dropKernelStack id = some k') :
    ∃ fixed' framed', PagesInv K k' (live.erase id) fixed' framed' rest := by
  simp only [StackState.dropKernelStack, toVirtPageNum_stack (h.fits hid), do_some, do_eq_some_iff,
    Option.some.injEq] at hdrop
  obtain ⟨⟨space, mem⟩, hremove, rfl⟩ := hdrop
  have hothers : ∀ other ∈ live.erase id, other ∈ live ∧ other ≠ id := fun other hother =>
    ⟨List.mem_of_mem_erase hother, fun heq => (h.nodup.not_mem_erase (heq ▸ hother))⟩
  cases hfind : fixed.find? (·.startVpn = (stackPages id).1) with
  | some area =>
    -- the first area that starts there has no pages, and goes in place of the stack
    obtain ⟨hstart, before, after, rfl, hbefore⟩ := List.find?_eq_some_iff_append.mp hfind
    replace hstart : area.startVpn = (stackPages id).1 := by simpa using hstart
    have hempty := h.fixed_empty hid (by simp) hstart
    obtain ⟨space', hremove', hspace⟩ := h.space.remove_empty hempty fun other hother => by
      simpa [hstart] using hbefore other hother
    rw [hstart, hremove, Option.some.injEq, Prod.mk.injEq] at hremove'
    obtain ⟨rfl, rfl⟩ := hremove'
    refine ⟨before ++ after, framed, hspace, ?_, h.perm, ?_, h.recycled, ?_, h.current_le,
      h.nodup.erase id⟩
    · rw [← fixedMapping_remove hempty]
      exact h.fixed_eq
    · exact fun other hother => h.area_of other (hothers other hother).1
    · exact fun other hother => h.lt_current other (hothers other hother).1
  | none =>
    obtain ⟨stack, hstack, hfirst, -⟩ := h.area_of id hid
    have hsome : (framed.find? (·.startVpn = (stackPages id).1)).isSome :=
      List.find?_isSome.mpr ⟨stack, hstack, by simpa using hfirst⟩
    obtain ⟨area, hfound⟩ := Option.isSome_iff_exists.mp hsome
    obtain ⟨hstart, before, after, hframed, hbefore⟩ := List.find?_eq_some_iff_append.mp hfound
    replace hstart : area.startVpn = (stackPages id).1 := by simpa using hstart
    obtain ⟨space', mem', hremove', hspace, -⟩ := h.space.remove_eq hframed (by
      intro other hother
      rw [hstart]
      rcases List.mem_append.mp hother with hother | hother
      · simpa using List.find?_eq_none.mp hfind other hother
      · simpa using hbefore other hother)
    rw [hstart, hremove, Option.some.injEq, Prod.mk.injEq] at hremove'
    obtain ⟨rfl, rfl⟩ := hremove'
    have hmem : ∀ other, other ∈ before ++ after → other ∈ framed := by
      intro other hother
      rw [hframed]
      exact ((List.Sublist.refl before).append (List.sublist_cons_self area after)).subset hother
    refine ⟨fixed, before ++ after, hspace, h.fixed_eq, fun other hother => h.perm other
      (hmem other hother), fun other hother => ?_, h.recycled, ?_, h.current_le, h.nodup.erase id⟩
    · obtain ⟨hlive, hne⟩ := hothers other hother
      obtain ⟨found, hin, hpage, hpos⟩ := h.area_of other hlive
      refine ⟨found, ?_, hpage, hpos⟩
      have hdifferent : found ≠ area := by
        rintro rfl
        exact h.startVpn_ne hid hlive hne (hpage.symm.trans hstart)
      rw [hframed] at hin
      simpa [hdifferent] using hin
    · exact fun other hother => h.lt_current other (hothers other hother).1

end

end PagesInv

theorem KernelRun.inv {K : KernelConfig} {k : StackState} {live : List Nat}
    (h : KernelRun K k live) : ∃ fixed framed rest, PagesInv K k live fixed framed rest := by
  induction h with
  | boot howns hnew => exact ⟨K.areas, [], _, PagesInv.boot howns hnew⟩
  | alloc _ halloc ih =>
    obtain ⟨fixed, framed, rest, hinv⟩ := ih
    obtain ⟨framed', hinv'⟩ := hinv.alloc halloc
    exact ⟨fixed, framed', rest, hinv'⟩
  | drop _ hlive hdrop ih =>
    obtain ⟨fixed, framed, rest, hinv⟩ := ih
    obtain ⟨fixed', framed', hinv'⟩ := hinv.drop hlive hdrop
    exact ⟨fixed', framed', rest, hinv'⟩
  | other _ hsame howns ih =>
    obtain ⟨fixed, framed, _, hinv⟩ := ih
    exact ⟨fixed, framed, _, { hinv with space := hinv.space.other hsame howns }⟩

/-! ## The entries in every run -/

namespace PagesInv

variable {K : KernelConfig} {k : StackState} {live : List Nat} {fixed framed : List MapArea}
  {rest : List Nat} {vpn : Nat}

theorem translate_range (h : PagesInv K k live fixed framed rest)
    {range : Nat × Nat × MapPermission} (hrange : range ∈ K.ranges) (hlow : range.1 ≤ 4096 * vpn)
    (hhigh : 4096 * vpn < range.2.1) : vpn < 2 ^ 44 ∧
      k.kernelSpace.translate k.mem.bytes vpn =
        some (PageTableEntry.new vpn (range.2.2 ||| PTEFlags.V)) := by
  have hcovers := (K.wholePages range hrange).covers_iff.mpr ⟨hlow, hhigh⟩
  have hlt := K.lt_trampolineVpn hrange hcovers
  have hsmall : vpn < 2 ^ 27 := by
    rw [trampolineVpn] at hlt
    omega
  obtain ⟨nodes, htable⟩ := h.space.table
  have hmapping : mappingOver (fixedMapping K.toLayout fixed) framed (vpn % 2 ^ 27) =
      some (vpn, range.2.2) := by
    rw [Nat.mod_eq_of_lt hsmall, mappingOver, h.fixed_eq, fixedMapping_of_covers K.areas_apart
      (List.mem_map_of_mem hrange) hcovers (Nat.ne_of_lt hlt), Option.some_or, areaOf]
  have htranslate := htable.translate_of_mapped hmapping
  exact ⟨Nat.lt_trans hsmall (by decide), htranslate⟩

theorem flags_cases (h : PagesInv K k live fixed framed rest) {pte : PageTableEntry}
    (hpte : k.kernelSpace.translate k.mem.bytes vpn = some pte) (hvalid : pte.isValid = true) :
    pte.flags = PTEFlags.R ||| PTEFlags.X ||| PTEFlags.V ∨ pte.flags = PTEFlags.R ||| PTEFlags.V ∨
      pte.flags = PTEFlags.R ||| PTEFlags.W ||| PTEFlags.V := by
  obtain ⟨nodes, htable⟩ := h.space.table
  rw [MemorySet.translate, htable.translate_eq] at hpte
  obtain ⟨_, -, rfl⟩ := Option.map_eq_some_iff.mp hpte
  cases he : mappingOver (fixedMapping K.toLayout fixed) framed (vpn % 2 ^ 27) with
  | none =>
    rw [he] at hvalid
    exact absurd hvalid (by decide)
  | some e =>
    have hflags : (leafEntry (some e)).flags = e.2 ||| PTEFlags.V :=
      PageTableEntry.flags_new (htable.ppn_lt he) _
    rw [hflags]
    rw [mappingOver, Option.or_eq_some_iff, h.fixed_eq] at he
    rcases he with he | ⟨-, he⟩
    · rcases fixedMapping_cases he with hperm | ⟨area, hmem, rfl⟩
      · exact .inl (by rw [hperm])
      · rcases K.perm_cases hmem with hperm | hperm | hperm
        · exact .inl (by rw [hperm]; rfl)
        · exact .inr (.inl (by rw [hperm]; rfl))
        · exact .inr (.inr (by rw [hperm]; rfl))
    · obtain ⟨area, hmem, hentry⟩ := List.exists_of_findSome?_eq_some he
      obtain ⟨p, -, rfl⟩ := Option.map_eq_some_iff.mp hentry
      exact .inr (.inr (by rw [h.perm area hmem]; rfl))

end PagesInv

/-- **The pages of the kernel are protected.**  `new_kernel` returns if there are frames for the
page table, and while kernel stacks come and go no entry is both writable and executable, the
pages of `.text` and `.rodata` are not writable, and every page of a section, of the free memory
and of the device registers is mapped to the physical page of its number. -/
theorem kernel_pages_protected (K : KernelConfig) :
    (∀ mem rest, mem.allocator.Owns K.low K.high rest →
      3 + 2 * (K.areas.map fun area => area.endVpn - area.startVpn).sum ≤ mem.allocator.available →
      MemorySet.newKernelAt K.toLayout K.toKernelSymbols K.mmio mem ≠ none) ∧
    ∀ k live, KernelRun K k live →
      (∀ vpn pte, k.kernelSpace.translate k.mem.bytes vpn = some pte → pte.isValid = true →
        ¬(pte.writable = true ∧ pte.executable = true)) ∧
      (∀ vpn, (K.stext ≤ 4096 * vpn ∧ 4096 * vpn < K.etext) ∨
          (K.srodata ≤ 4096 * vpn ∧ 4096 * vpn < K.erodata) →
        ∃ pte, k.kernelSpace.translate k.mem.bytes vpn = some pte ∧ pte.isValid = true ∧
          pte.writable = false) ∧
      (∀ range ∈ K.ranges, ∀ vpn, range.1 ≤ 4096 * vpn → 4096 * vpn < range.2.1 →
        ∃ pte, k.kernelSpace.translate k.mem.bytes vpn = some pte ∧ pte.isValid = true ∧
          pte.ppn = vpn) := by
  refine ⟨fun mem rest howns henough hnone => ?_, fun k live hrun => ?_⟩
  · have hyields := MemorySet.newKernelAt_yields howns
    rw [hnone] at hyields
    have hfull : K.high < K.low + rest.length + _ := hyields
    have havailable := howns.add_available
    omega
  · obtain ⟨fixed, framed, rest, hinv⟩ := hrun.inv
    refine ⟨fun vpn pte hpte hvalid => ?_, fun vpn hvpn => ?_, fun range hrange vpn hlow hhigh => ?_⟩
    · rcases hinv.flags_cases hpte hvalid with hflags | hflags | hflags <;>
        simp only [PageTableEntry.writable, PageTableEntry.executable, hflags] <;> decide
    · rcases hvpn with ⟨hlow, hhigh⟩ | ⟨hlow, hhigh⟩
      · have hrange : (K.stext, K.etext, MapPermission.R ||| MapPermission.X) ∈ K.ranges := by
          simp [KernelConfig.ranges, KernelSymbols.ranges]
        obtain ⟨hlt, hpte⟩ := hinv.translate_range hrange hlow hhigh
        refine ⟨_, hpte, PageTableEntry.isValid_new hlt _, ?_⟩
        rw [PageTableEntry.writable, PageTableEntry.flags_new hlt]
        change ((MapPermission.R ||| MapPermission.X ||| PTEFlags.V) &&& PTEFlags.W != 0) = false
        decide
      · have hrange : (K.srodata, K.erodata, MapPermission.R) ∈ K.ranges := by
          simp [KernelConfig.ranges, KernelSymbols.ranges]
        obtain ⟨hlt, hpte⟩ := hinv.translate_range hrange hlow hhigh
        refine ⟨_, hpte, PageTableEntry.isValid_new hlt _, ?_⟩
        rw [PageTableEntry.writable, PageTableEntry.flags_new hlt]
        change ((MapPermission.R ||| PTEFlags.V) &&& PTEFlags.W != 0) = false
        decide
    · obtain ⟨hlt, hpte⟩ := hinv.translate_range hrange hlow hhigh
      exact ⟨_, hpte, PageTableEntry.isValid_new hlt _, PageTableEntry.ppn_new hlt _⟩

/-- A kernel with sections of one page each, directly below the end of the memory. -/
def smallConfig : KernelConfig where
  toLayout := smallLayout
  stext := 0x807fb000
  etext := 0x807fc000
  srodata := 0x807fc000
  erodata := 0x807fd000
  sdata := 0x807fd000
  edata := 0x807fe000
  sbssWithStack := 0x807fe000
  ebss := 0x807ff000
  ekernel := 0x807ff000
  mmio := [(0x10001000, 0x1000)]
  boundaries_aligned := by decide
  stext_le := by decide
  etext_eq := rfl
  srodata_le := by decide
  erodata_eq := rfl
  sdata_le := by decide
  edata_eq := rfl
  sbssWithStack_le := by decide
  ebss_eq := rfl
  ekernel_le := by decide
  mmio_aligned := by decide
  mmio_below := by decide
  mmio_apart := List.pairwise_singleton _ _
  mmio_outside := by
    intro pair hmem x hle _ hin
    obtain rfl := List.mem_singleton.mp hmem
    have hlt := hin.2
    simp only at hle hlt
    omega

/-- Its text is not writable. -/
theorem kernel_pages_protected_small : ∃ space mem pte,
    MemorySet.newKernelAt smallConfig.toLayout smallConfig.toKernelSymbols smallConfig.mmio
      ⟨fun _ => 7, ⟨100, 200, []⟩⟩ = some (space, mem) ∧
    space.translate mem.bytes 0x807fb = some pte ∧ pte.isValid = true ∧ pte.writable = false := by
  obtain ⟨mem₀, hmem₀⟩ : ∃ mem₀ : PhysMem, mem₀ = ⟨fun _ => 7, ⟨100, 200, []⟩⟩ := ⟨_, rfl⟩
  have howns : mem₀.allocator.Owns smallConfig.low smallConfig.high [] := by
    rw [hmem₀]
    exact owns_smallLayout
  obtain ⟨hreturns, hruns⟩ := kernel_pages_protected smallConfig
  obtain ⟨⟨space, mem⟩, hnew⟩ := Option.ne_none_iff_exists'.mp
    (hreturns mem₀ [] howns (by rw [hmem₀]; decide))
  obtain ⟨-, htext, -⟩ := hruns _ _ (KernelRun.boot howns hnew)
  rw [hmem₀] at hnew
  obtain ⟨pte, hpte, hvalid, hwritable⟩ := htext 0x807fb (.inl (by decide))
  exact ⟨space, mem, pte, hnew, hpte, hvalid, hwritable⟩

end RCore.Task
