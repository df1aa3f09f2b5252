import RCore.EasyFs.FsProperties

/-!
# The blocks that `alloc_data` hands out

The data bitmap has 4096 bits in each of its blocks, and its number of blocks is
rounded up; the data area is what the device has left.  Runs of `alloc_data` and
`dealloc_data` after `EasyFileSystem::create` stay in the area exactly if nothing was
rounded.
-/

namespace RCore.EasyFs

open RCore.Lib.LockedStore List Machine
open EasyFileSystem (layout superBlock)

/-! ## Runs -/

namespace Machine

def allocData (m : Machine) : Option (UInt32 × Machine) := do
  let (id, cache) ← m.efs.allocData.exec cacheBackend m.cache
  some (id, { m with cache := cache })

def deallocData (m : Machine) (blockId : UInt32) : Option Machine := do
  let ((), cache) ← (m.efs.deallocData blockId).exec cacheBackend m.cache
  some { m with cache := cache }

end Machine

/-- The number of a block that has a bit in the data bitmap. -/
def EasyFileSystem.HasBit (efs : EasyFileSystem) (id : UInt32) : Prop :=
  efs.dataAreaStartBlock.toNat ≤ id.toNat ∧
    id.toNat < efs.dataAreaStartBlock.toNat + efs.dataBitmap.maximum

/-- The states of runs of `alloc_data` and `dealloc_data` after `create`, with the blocks that
have been handed out and not given back. -/
inductive DataReaches (totalBlocks inodeBitmapBlocks : UInt32) (dev : Nat → Block) :
    Machine → List UInt32 → Prop where
  | start {m : Machine} (hm : Machine.create totalBlocks inodeBitmapBlocks dev = some m) :
      DataReaches totalBlocks inodeBitmapBlocks dev m []
  | alloc {m m' : Machine} {live : List UInt32} {id : UInt32}
      (hm : DataReaches totalBlocks inodeBitmapBlocks dev m live)
      (halloc : m.allocData = some (id, m')) :
      DataReaches totalBlocks inodeBitmapBlocks dev m' (live ++ [id])
  | dealloc {m m' : Machine} {live : List UInt32} {id : UInt32}
      (hm : DataReaches totalBlocks inodeBitmapBlocks dev m live) (hbit : m.efs.HasBit id)
      (hdealloc : m.deallocData id = some m') :
      DataReaches totalBlocks inodeBitmapBlocks dev m' (live.erase id)

/-- The block number lies in the data area of a device of `totalBlocks` blocks. -/
def EasyFileSystem.InDataArea (efs : EasyFileSystem) (totalBlocks : UInt32) (x : Nat) : Prop :=
  efs.dataAreaStartBlock.toNat ≤ x ∧ x < totalBlocks.toNat

/-- In every state of a run, `alloc_data` returns only blocks of the data area, and none when
all of them are handed out. -/
def KeepsToDataArea (totalBlocks inodeBitmapBlocks : UInt32) (dev : Nat → Block) : Prop :=
  ∀ m live, DataReaches totalBlocks inodeBitmapBlocks dev m live →
    (∀ id m', m.allocData = some (id, m') → m.efs.InDataArea totalBlocks id.toNat) ∧
    ((∀ x, m.efs.InDataArea totalBlocks x → ∃ id ∈ live, id.toNat = x) → m.allocData = none)

/-! ## The invariant -/

/-- The bitmap marks the blocks that are handed out, which are distinct. -/
structure DataInv (T b : UInt32) (m : Machine) (live : List UInt32) : Prop where
  efs : m.efs = EasyFileSystem.layout T b
  rep : Represents m.cache ⟨m.cache.content, []⟩
  data : DataArea (EasyFileSystem.layout T b) (EasyFileSystem.superBlock T b).dataAreaBlocks.toNat
    m.cache.content live
  nodup : live.Nodup

variable {T b : UInt32} {dev : Nat → Block} {m m' : Machine} {live : List UInt32} {id : UInt32}

theorem LayoutFits.dataEnd_eq (hfit : LayoutFits T b) :
    (layout T b).dataAreaStartBlock.toNat + (superBlock T b).dataAreaBlocks.toNat = T.toNat := by
  have hareas := hfit.areas
  have harea := hfit.dataAreaBlocks_eq
  have hbits := hfit.dataBitmapBlocks_eq
  rw [hfit.geometry.dataArea]
  omega

theorem dataInv_create (hfit : LayoutFits T b) (hm : create T b dev = some m) :
    DataInv T b m [] := by
  have hinv := contentsInv_create hfit hm
  have hnil : (layout T b).usedBlocks m.cache.content 1 = [] :=
    eq_nil_of_length_eq_zero hinv.inv.length_usedBlocks
  have hdata := hinv.inv.data
  rw [length_singleton, hnil] at hdata
  exact ⟨hinv.efs, hinv.holds.1, hdata, nodup_nil⟩

namespace DataInv

theorem next (h : DataInv T b m live) {s' : CacheState} {blk' : Nat → Block} {live' : List UInt32}
    (hrep : Represents s' ⟨blk', []⟩)
    (hdata : DataArea (layout T b) (superBlock T b).dataAreaBlocks.toNat blk' live')
    (hnodup : live'.Nodup) : DataInv T b { m with cache := s' } live' := by
  have hcontent := hrep.content_eq
  exact ⟨h.efs, hcontent.symm ▸ hrep, hcontent.symm ▸ hdata, hnodup⟩

variable (hfit : LayoutFits T b) (h : DataInv T b m live)
include hfit h

theorem allocData_free (hlen : live.length < (superBlock T b).dataAreaBlocks.toNat) :
    ∃ id m', m.allocData = some (id, m') ∧ DataInv T b m' (live ++ [id]) := by
  obtain ⟨id, blk', hrun, hnew, -, hdata, -⟩ := run_allocData hfit.geometry h.data hlen
    (fun _ _ => not_mem_nil) (show 0 < blockCacheSize by decide)
  obtain ⟨s', hexec, hrep, -⟩ := cache_simulation.exec_of_run h.rep hrun
  refine ⟨id, _, ?_, h.next hrep hdata (nodup_append.mpr ⟨h.nodup, by simp, ?_⟩)⟩
  · rw [allocData, h.efs, hexec]
    rfl
  · intro x hx y hy he
    rw [mem_singleton] at hy
    rw [he, hy] at hx
    exact hnew hx

theorem mem_of_deallocData (hbit : m.efs.HasBit id) (hdealloc : m.deallocData id = some m') :
    id ∈ live := by
  by_contra hnew
  rw [EasyFileSystem.HasBit, h.efs] at hbit
  have hmax : (layout T b).dataBitmap.maximum =
      (superBlock T b).dataBitmapBlocks.toNat * 4096 := rfl
  have hpanic := panics_deallocData hfit.geometry h.data hbit.1 (by omega) hnew
    (fun _ _ => not_mem_nil) not_mem_nil (show 0 < blockCacheSize by decide)
  rw [deallocData, h.efs, cache_simulation.exec_eq_none h.rep hpanic.fails] at hdealloc
  cases hdealloc

theorem dealloc (hbit : m.efs.HasBit id) (hdealloc : m.deallocData id = some m') :
    DataInv T b m' (live.erase id) := by
  have hmem := h.mem_of_deallocData hfit hbit hdealloc
  have hdata := h.data.congr fun x => (perm_cons_erase hmem).mem_iff.symm
  have hnew : id ∉ live.erase id := fun hin => (h.nodup.mem_erase_iff.mp hin).1 rfl
  obtain ⟨blk', hrun, hdata', -⟩ := run_deallocData hfit.geometry hdata hnew
    (fun _ _ => not_mem_nil) not_mem_nil (show 0 < blockCacheSize by decide)
  obtain ⟨s', hexec, hrep, -⟩ := cache_simulation.exec_of_run h.rep hrun
  rw [deallocData, h.efs, hexec] at hdealloc
  cases hdealloc
  have hnext := h.next hrep hdata' (h.nodup.erase id)
  rw [h.efs] at hnext
  exact hnext

theorem handedOut (hlen : (superBlock T b).dataAreaBlocks.toNat ≤ live.length)
    {x : Nat} (hx : m.efs.InDataArea T x) : ∃ id ∈ live, id.toNat = x := by
  have hend := hfit.dataEnd_eq
  rw [EasyFileSystem.InDataArea, h.efs] at hx
  exact h.data.mem_of_length h.nodup hlen hx.1 (by omega)

variable (hall : ∀ x, m.efs.InDataArea T x → ∃ id ∈ live, id.toNat = x)
include hall

theorem bit_eq_true {j : Nat} (hj : j < (superBlock T b).dataAreaBlocks.toNat) :
    (layout T b).dataBitmap.bitAt m.cache.content j = true := by
  have hend := hfit.dataEnd_eq
  have hcovered := hfit.geometry.covered
  have hblocks := hfit.geometry.dataBitmap_blocks
  rw [h.data.bits j (by omega)]
  refine hall _ ?_
  rw [EasyFileSystem.InDataArea, h.efs]
  omega

theorem allocData_full (hexact : (superBlock T b).dataAreaBlocks.toNat =
      4096 * (superBlock T b).dataBitmapBlocks.toNat) : m.allocData = none := by
  have hpanic := panics_allocData hfit.geometry (fun j hj => h.bit_eq_true hfit hall (by omega))
    (fun _ _ => not_mem_nil) (show 0 < blockCacheSize by decide)
  rw [allocData, h.efs, cache_simulation.exec_eq_none h.rep hpanic.fails]
  rfl

theorem allocData_beyond (hless : (superBlock T b).dataAreaBlocks.toNat <
      4096 * (superBlock T b).dataBitmapBlocks.toNat) :
    ∃ m', m.allocData = some (T, m') := by
  have hg := hfit.geometry
  have hend := hfit.dataEnd_eq
  have hlt := T.toNat_lt
  have hblocks := hg.dataBitmap_blocks
  have hclear : (layout T b).dataBitmap.bitAt m.cache.content
      (superBlock T b).dataAreaBlocks.toNat = false := by
    rw [← Bool.not_eq_true, h.data.bits _ (by omega)]
    rintro ⟨x, hx, hxd⟩
    have hrange := h.data.range x hx
    omega
  have hid : UInt32.ofNat (superBlock T b).dataAreaBlocks.toNat +
      (layout T b).dataAreaStartBlock = T := by
    apply UInt32.toNat_inj.mp
    rw [UInt32.toNat_add, UInt32.toNat_ofNat', Nat.mod_eq_of_lt (by omega),
      Nat.mod_eq_of_lt (by omega), Nat.add_comm]
    exact hend
  have hrun := run_allocData_of_clear hg hless hclear
    (fun j hj => h.bit_eq_true hfit hall hj) (fun _ _ => not_mem_nil)
    (show 0 < blockCacheSize by decide)
  rw [hid] at hrun
  obtain ⟨s', hexec, -, -⟩ := cache_simulation.exec_of_run h.rep hrun
  refine ⟨{ m with cache := s' }, ?_⟩
  rw [allocData, h.efs, hexec]
  rfl

end DataInv

theorem DataReaches.dataInv (hfit : LayoutFits T b)
    (hexact : (superBlock T b).dataAreaBlocks.toNat =
      4096 * (superBlock T b).dataBitmapBlocks.toNat)
    (h : DataReaches T b dev m live) : DataInv T b m live := by
  induction h with
  | start hm => exact dataInv_create hfit hm
  | @alloc m m' live id _ halloc ih =>
    by_cases hlen : live.length < (superBlock T b).dataAreaBlocks.toNat
    · obtain ⟨id', m'', halloc', hnext⟩ := ih.allocData_free hfit hlen
      rw [halloc'] at halloc
      cases halloc
      exact hnext
    · have hall := fun x => ih.handedOut hfit (Nat.le_of_not_lt hlen) (x := x)
      rw [ih.allocData_full hfit hall hexact] at halloc
      cases halloc
  | dealloc _ hbit hdealloc ih => exact ih.dealloc hfit hbit hdealloc

theorem exists_dataReaches (hfit : LayoutFits T b) (dev : Nat → Block) (n : Nat)
    (hn : n ≤ (superBlock T b).dataAreaBlocks.toNat) :
    ∃ m live, DataReaches T b dev m live ∧ live.length = n ∧ DataInv T b m live := by
  induction n with
  | zero =>
    obtain ⟨m, hm, -⟩ := machineInv_create hfit dev
    exact ⟨m, [], .start hm, rfl, dataInv_create hfit hm⟩
  | succ n ih =>
    obtain ⟨m, live, hm, hlen, hinv⟩ := ih (by omega)
    obtain ⟨id, m', halloc, hinv'⟩ := hinv.allocData_free hfit (by omega)
    exact ⟨m', _, hm.alloc halloc, by simp [hlen], hinv'⟩

theorem exists_beyond (hfit : LayoutFits T b) (dev : Nat → Block)
    (hless : (superBlock T b).dataAreaBlocks.toNat <
      4096 * (superBlock T b).dataBitmapBlocks.toNat) :
    ∃ m live m', DataReaches T b dev m live ∧
      (∀ x, m.efs.InDataArea T x → ∃ id ∈ live, id.toNat = x) ∧ m.allocData = some (T, m') := by
  obtain ⟨m, live, hm, hlen, hinv⟩ := exists_dataReaches hfit dev _ le_rfl
  have hall := fun x => hinv.handedOut hfit hlen.ge (x := x)
  obtain ⟨m', halloc⟩ := hinv.allocData_beyond hfit hall hless
  exact ⟨m, live, m', hm, hall, halloc⟩

/-- **The data area.**  On a device that holds all areas, the runs of `alloc_data` and
`dealloc_data` keep to the data area if and only if the blocks behind the inode area are a
multiple of 4097: then each block of the data bitmap stands for 4096 blocks. -/
theorem data_area_kept_iff {T b : UInt32} (hfit : LayoutFits T b) (dev : Nat → Block) :
    KeepsToDataArea T b dev ↔ 4097 ∣ T.toNat - 1 - 1025 * b.toNat := by
  have harea := hfit.dataAreaBlocks_eq
  have hbits := hfit.dataBitmapBlocks_eq
  have hend := hfit.dataEnd_eq
  have hcovered := hfit.geometry.covered
  constructor
  · intro hkeeps
    by_contra hdiv
    obtain ⟨m, live, m', hm, -, halloc⟩ := exists_beyond hfit dev (by omega)
    exact absurd ((hkeeps m live hm).1 T m' halloc).2 (lt_irrefl _)
  · intro hdiv m live hm
    have hexact : (superBlock T b).dataAreaBlocks.toNat =
        4096 * (superBlock T b).dataBitmapBlocks.toNat := by omega
    have hinv := hm.dataInv hfit hexact
    refine ⟨fun id m' halloc => ?_, fun hall => hinv.allocData_full hfit hall hexact⟩
    have hrange := ((hm.alloc halloc).dataInv hfit hexact).data.range id (by simp)
    rw [EasyFileSystem.InDataArea, hinv.efs]
    omega

/-- A device with one full block of data bitmap. -/
theorem data_area_kept_iff_full : KeepsToDataArea 5123 1 fun _ => Block.zero :=
  (data_area_kept_iff ⟨by decide, by decide, by decide⟩ _).mpr (by decide)

/-- On a device of 4096 blocks with one block of inode bitmap, `alloc_data` returns block 4096
when the 3069 blocks of the area are handed out. -/
theorem data_area_left : ¬KeepsToDataArea 4096 1 (fun _ => Block.zero) ∧
    ∃ m live m', DataReaches 4096 1 (fun _ => Block.zero) m live ∧
      (∀ x, m.efs.InDataArea 4096 x → ∃ id ∈ live, id.toNat = x) ∧
      m.allocData = some (4096, m') := by
  obtain ⟨m, live, m', hm, hall, halloc⟩ := exists_beyond layoutFits_small (fun _ => Block.zero)
    (by decide)
  refine ⟨fun hkeeps => ?_, m, live, m', hm, hall, halloc⟩
  exact absurd ((hkeeps m live hm).1 4096 m' halloc).2 (lt_irrefl _)

end RCore.EasyFs
