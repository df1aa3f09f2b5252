import RCore.EasyFs.FileData
import Mathlib.Data.List.Perm.Subperm

/-!
# The file system layout and its allocators

`EasyFileSystem::create` divides the device into the super block, the inode
bitmap, the inode area, the data bitmap and the data area.  `Geometry` collects
what the rest of the development uses of that division, and `DataArea` says what
the data bitmap and the free data blocks hold for a given list of used blocks.
-/

namespace RCore.EasyFs

open RCore.Lib.LockedStore Function List Block
open Prog (withModify withRead check unwrap)
open UInt32 (le_iff_toNat_le ofNat toNat toNat_add toNat_inj toNat_ofNat' toNat_sub_of_le)

variable {id : UInt32} {i : Nat}

structure EasyFileSystem where
  inodeBitmap : Bitmap
  dataBitmap : Bitmap
  inodeAreaStartBlock : UInt32
  dataAreaStartBlock : UInt32
  deriving DecidableEq

namespace EasyFileSystem

/-- `get_disk_inode_pos`: block and byte offset of an inode record. -/
def getDiskInodePos (self : EasyFileSystem) (inodeId : UInt32) : UInt32 × Nat :=
  let inodesPerBlock := UInt32.ofNat (blockSz / diskInodeSize)
  (self.inodeAreaStartBlock + inodeId / inodesPerBlock,
    (inodeId % inodesPerBlock).toNat * diskInodeSize)

def allocInode (self : EasyFileSystem) : FsProg UInt32 := do
  let pos ← self.inodeBitmap.alloc
  let pos ← unwrap pos
  pure (UInt32.ofNat pos)

/-- `alloc_data`: a block number, not a number within the data area. -/
def allocData (self : EasyFileSystem) : FsProg UInt32 := do
  let pos ← self.dataBitmap.alloc
  let pos ← unwrap pos
  pure (UInt32.ofNat pos + self.dataAreaStartBlock)

def deallocData (self : EasyFileSystem) (blockId : UInt32) : FsProg Unit := do
  withModify blockId.toNat fun _ => pure ((), Block.zero)
  self.dataBitmap.dealloc (blockId - self.dataAreaStartBlock).toNat

/-- The loop of `Inode::increase_size` that allocates `n` blocks. -/
def allocDatas (self : EasyFileSystem) : Nat → List UInt32 → FsProg (List UInt32)
  | 0, v => pure v
  | n + 1, v => do
      let id ← self.allocData
      self.allocDatas n (v ++ [id])

/-- The loop of `Inode::clear` that deallocates the given blocks. -/
def deallocDatas (self : EasyFileSystem) : List UInt32 → FsProg Unit
  | [] => pure ()
  | id :: rest => do
      self.deallocData id
      self.deallocDatas rest

/-- `inode_area_blocks` as `create` computes it. -/
def inodeAreaBlocks (inodeBitmapBlocks : UInt32) : UInt32 :=
  UInt32.ofNat ((Bitmap.maximum ⟨1, inodeBitmapBlocks.toNat⟩ * diskInodeSize + blockSz - 1) /
    blockSz)

/-- The super block `create` writes. -/
def superBlock (totalBlocks inodeBitmapBlocks : UInt32) : SuperBlock :=
  let inodeTotalBlocks := inodeBitmapBlocks + inodeAreaBlocks inodeBitmapBlocks
  let dataTotalBlocks := totalBlocks - 1 - inodeTotalBlocks
  let dataBitmapBlocks := (dataTotalBlocks + 4096) / 4097
  let dataAreaBlocks := dataTotalBlocks - dataBitmapBlocks
  SuperBlock.initial totalBlocks inodeBitmapBlocks (inodeAreaBlocks inodeBitmapBlocks)
    dataBitmapBlocks dataAreaBlocks

/-- The file system value `create` computes. -/
def layout (totalBlocks inodeBitmapBlocks : UInt32) : EasyFileSystem :=
  let inodeAreaBlocks := inodeAreaBlocks inodeBitmapBlocks
  let inodeTotalBlocks := inodeBitmapBlocks + inodeAreaBlocks
  let dataTotalBlocks := totalBlocks - 1 - inodeTotalBlocks
  let dataBitmapBlocks := (dataTotalBlocks + 4096) / 4097
  { inodeBitmap := ⟨1, inodeBitmapBlocks.toNat⟩
    dataBitmap := ⟨(1 + inodeBitmapBlocks + inodeAreaBlocks).toNat, dataBitmapBlocks.toNat⟩
    inodeAreaStartBlock := 1 + inodeBitmapBlocks
    dataAreaStartBlock := 1 + inodeTotalBlocks + dataBitmapBlocks }

/-- Store a zero block at each of the given numbers. -/
def clearBlocks : List Nat → FsProg Unit
  | [] => pure ()
  | i :: rest => do
      withModify i fun _ => pure ((), Block.zero)
      clearBlocks rest

/-- Replace the inode record at a position. -/
def writeInode (blockId : Nat) (offset : Nat) (inode : DiskInode) : FsProg Unit :=
  withModify blockId fun b => do
    check (offset + diskInodeSize ≤ blockSz)
    pure ((), inode.toBlock b offset)

/-- `create` before the final `block_cache_sync_all`. -/
def format (totalBlocks inodeBitmapBlocks : UInt32) : FsProg EasyFileSystem := do
  let efs := layout totalBlocks inodeBitmapBlocks
  -- clear all blocks
  clearBlocks (List.range totalBlocks.toNat)
  withModify 0 fun b => pure ((), (superBlock totalBlocks inodeBitmapBlocks).toBlock b)
  -- create a inode for root node "/"
  let inodeId ← efs.allocInode
  check (inodeId == 0)
  let (rootInodeBlockId, rootInodeOffset) := efs.getDiskInodePos 0
  writeInode rootInodeBlockId.toNat rootInodeOffset (DiskInode.initial .directory)
  pure efs

def create (totalBlocks inodeBitmapBlocks : UInt32) : FsProg EasyFileSystem := do
  let efs ← format totalBlocks inodeBitmapBlocks
  Prog.syncAll (pure efs)

/-- `EasyFileSystem::open`. -/
def openEfs : FsProg EasyFileSystem :=
  withRead 0 fun b => do
    let superBlock := SuperBlock.ofBlock b
    check superBlock.isValid
    let inodeTotalBlocks := superBlock.inodeBitmapBlocks + superBlock.inodeAreaBlocks
    pure {
      inodeBitmap := ⟨1, superBlock.inodeBitmapBlocks.toNat⟩
      dataBitmap := ⟨(1 + inodeTotalBlocks).toNat, superBlock.dataBitmapBlocks.toNat⟩
      inodeAreaStartBlock := 1 + superBlock.inodeBitmapBlocks
      dataAreaStartBlock := 1 + inodeTotalBlocks + superBlock.dataBitmapBlocks }

end EasyFileSystem

/-! ## Geometry -/

/-- The division of the device: `b` blocks of inode bitmap, `1024 * b` blocks of inodes,
`db` blocks of data bitmap and `d` data blocks. -/
structure Geometry (efs : EasyFileSystem) (b db d : Nat) : Prop where
  inodeBitmap : efs.inodeBitmap = ⟨1, b⟩
  inodeBitmap_pos : 0 < b
  inodeArea : efs.inodeAreaStartBlock.toNat = 1 + b
  dataBitmap : efs.dataBitmap = ⟨1 + 1025 * b, db⟩
  dataArea : efs.dataAreaStartBlock.toNat = 1 + 1025 * b + db
  covered : d ≤ 4096 * db
  dataEnd : 1 + 1025 * b + db + d < 2 ^ 32

namespace Geometry

variable {efs : EasyFileSystem} {b db d : Nat}

theorem inodeBitmap_start (hg : Geometry efs b db d) : efs.inodeBitmap.startBlockId = 1 := by
  rw [hg.inodeBitmap]

theorem dataBitmap_start (hg : Geometry efs b db d) :
    efs.dataBitmap.startBlockId = 1 + 1025 * b := by
  rw [hg.dataBitmap]

theorem dataBitmap_blocks (hg : Geometry efs b db d) : efs.dataBitmap.blocks = db := by
  rw [hg.dataBitmap]

end Geometry

/-- The arguments of `create` describe a device that holds all areas, and none of the
`u32` computations of `create` wraps. -/
structure LayoutFits (totalBlocks inodeBitmapBlocks : UInt32) : Prop where
  inodeBitmap_pos : 0 < inodeBitmapBlocks.toNat
  areas : 1 + 1025 * inodeBitmapBlocks.toNat ≤ totalBlocks.toNat
  bitmap : totalBlocks.toNat - 1 - 1025 * inodeBitmapBlocks.toNat + 4096 < 2 ^ 32

namespace LayoutFits

open EasyFileSystem (layout superBlock inodeAreaBlocks)

variable {T b : UInt32}

section

variable (h : LayoutFits T b)
include h

theorem inodeAreaBlocks_eq : (inodeAreaBlocks b).toNat = 1024 * b.toNat := by
  have hlt := T.toNat_lt
  have hareas := h.areas
  have hnum : (b.toNat * (512 * 8) * 128 + 512 - 1) / 512 = 1024 * b.toNat := by omega
  change (ofNat ((b.toNat * (512 * 8) * 128 + 512 - 1) / 512)).toNat = _
  rw [hnum, toNat_ofNat', Nat.mod_eq_of_lt (by omega)]

theorem inodeTotal_eq : (b + inodeAreaBlocks b).toNat = 1025 * b.toNat := by
  have hlt := T.toNat_lt
  have hareas := h.areas
  rw [toNat_add, h.inodeAreaBlocks_eq, Nat.mod_eq_of_lt]
  · omega
  · omega

/-- `data_total_blocks`. -/
theorem dataTotal_eq : (T - 1 - (b + inodeAreaBlocks b)).toNat = T.toNat - 1 - 1025 * b.toNat := by
  have hareas := h.areas
  have hone : (T - 1).toNat = T.toNat - 1 := by
    rw [toNat_sub_of_le _ _ (by rw [le_iff_toNat_le]; simp; omega)]
    rfl
  rw [toNat_sub_of_le _ _ (by
    rw [le_iff_toNat_le, hone, h.inodeTotal_eq]
    omega), hone, h.inodeTotal_eq]

theorem dataBitmapBlocks_eq :
    (superBlock T b).dataBitmapBlocks.toNat =
      (T.toNat - 1 - 1025 * b.toNat + 4096) / 4097 := by
  have hbitmap := h.bitmap
  change ((T - 1 - (b + inodeAreaBlocks b) + 4096) / 4097).toNat = _
  rw [UInt32.toNat_div, toNat_add, h.dataTotal_eq, Nat.mod_eq_of_lt (by simpa using hbitmap)]
  rfl

theorem dataAreaBlocks_eq :
    (superBlock T b).dataAreaBlocks.toNat =
      T.toNat - 1 - 1025 * b.toNat - (T.toNat - 1 - 1025 * b.toNat + 4096) / 4097 := by
  have hbits := h.dataBitmapBlocks_eq
  change (T - 1 - (b + inodeAreaBlocks b) - (superBlock T b).dataBitmapBlocks).toNat = _
  rw [toNat_sub_of_le _ _ (by
    rw [le_iff_toNat_le, hbits, h.dataTotal_eq]
    omega), hbits, h.dataTotal_eq]

/-- The layout that `create` computes is a division of the device. -/
theorem geometry :
    Geometry (layout T b) b.toNat (superBlock T b).dataBitmapBlocks.toNat
      (superBlock T b).dataAreaBlocks.toNat := by
  have hlt := T.toNat_lt
  have hareas := h.areas
  have hbits := h.dataBitmapBlocks_eq
  have harea := h.dataAreaBlocks_eq
  have hone : (1 + b).toNat = 1 + b.toNat := by
    rw [toNat_add]
    exact Nat.mod_eq_of_lt (by simp; omega)
  have htotal : (1 + (b + inodeAreaBlocks b)).toNat = 1 + 1025 * b.toNat := by
    rw [toNat_add, h.inodeTotal_eq]
    exact Nat.mod_eq_of_lt (by simp; omega)
  have hstart : (1 + b + inodeAreaBlocks b).toNat = 1 + 1025 * b.toNat := by
    rw [UInt32.add_assoc, htotal]
  refine ⟨rfl, h.inodeBitmap_pos, hone, ?_, ?_, ?_, ?_⟩
  · change (⟨(1 + b + inodeAreaBlocks b).toNat, _⟩ : Bitmap) = _
    rw [hstart]
    rfl
  · change (1 + (b + inodeAreaBlocks b) + (superBlock T b).dataBitmapBlocks).toNat = _
    rw [toNat_add, htotal, Nat.mod_eq_of_lt]
    omega
  · omega
  · omega

end

end LayoutFits

-- the two layouts that are created in the repository
example : LayoutFits (16 * 2048) 1 ∧ LayoutFits 4096 1 :=
  ⟨⟨by decide, by decide, by decide⟩, ⟨by decide, by decide, by decide⟩⟩

/-! ## The data area -/

/-- The blocks `used` are the ones marked in the data bitmap, and the others are zero. -/
structure DataArea (efs : EasyFileSystem) (d : Nat) (blk : Nat → Block) (used : List UInt32) :
    Prop where
  bits : ∀ j < 4096 * efs.dataBitmap.blocks, efs.dataBitmap.bitAt blk j = true ↔
    ∃ id ∈ used, id.toNat = efs.dataAreaStartBlock.toNat + j
  range : ∀ id ∈ used, efs.dataAreaStartBlock.toNat ≤ id.toNat ∧
    id.toNat < efs.dataAreaStartBlock.toNat + d
  free_zero : ∀ j < d, efs.dataBitmap.bitAt blk j = false →
    blk (efs.dataAreaStartBlock.toNat + j) = Block.zero

/-- A block of the data bitmap. -/
def InDataBitmap (efs : EasyFileSystem) (id : Nat) : Prop :=
  efs.dataBitmap.startBlockId ≤ id ∧ id < efs.dataBitmap.startBlockId + efs.dataBitmap.blocks

namespace DataArea

variable {efs : EasyFileSystem} {b db d : Nat} {blk : Nat → Block} {used used' : List UInt32}

section

variable (h : DataArea efs d blk used)
include h

theorem congr (hmem : ∀ id, id ∈ used' ↔ id ∈ used) :
    DataArea efs d blk used' where
  bits := by
    intro j hj
    simp only [hmem]
    exact h.bits j hj
  range := fun id hid => h.range id ((hmem id).mp hid)
  free_zero := h.free_zero

theorem frame (hg : Geometry efs b db d) {blk' : Nat → Block}
    (hbitmap : ∀ id, InDataBitmap efs id → blk' id = blk id)
    (hfree : ∀ j < d, (∀ id ∈ used, id.toNat ≠ efs.dataAreaStartBlock.toNat + j) →
      blk' (efs.dataAreaStartBlock.toNat + j) = blk (efs.dataAreaStartBlock.toNat + j)) :
    DataArea efs d blk' used := by
  have hblocks := hg.dataBitmap_blocks
  have hbit : ∀ j < 4096 * efs.dataBitmap.blocks,
      efs.dataBitmap.bitAt blk' j = efs.dataBitmap.bitAt blk j := by
    intro j hj
    apply Bitmap.bitAt_congr
    apply hbitmap
    exact ⟨by omega, by omega⟩
  have hcovered := hg.covered
  refine ⟨?_, h.range, ?_⟩
  · intro j hj
    rw [hbit j hj]
    exact h.bits j hj
  · intro j hj hclear
    rw [hbit j (by omega)] at hclear
    rw [hfree j hj, h.free_zero j hj hclear]
    intro id hid heq
    rw [(h.bits j (by omega)).mpr ⟨id, hid, heq⟩] at hclear
    exact Bool.false_ne_true hclear.symm

theorem subperm (hnodup : used.Nodup) :
    (used.map toNat).Subperm (range' efs.dataAreaStartBlock.toNat d) := by
  have hmap : (used.map toNat).Nodup := hnodup.map fun _ _ => toNat_inj.mp
  refine subperm_of_subset hmap fun x hx => ?_
  obtain ⟨id, hid, rfl⟩ := mem_map.mp hx
  exact mem_range'_1.mpr (h.range id hid)

theorem length_le (hnodup : used.Nodup) : used.length ≤ d := by
  have hle := (h.subperm hnodup).length_le
  rwa [length_map, length_range'] at hle

/-- If `d` blocks are used, they are all the blocks of the data area. -/
theorem mem_of_length (hnodup : used.Nodup) (hlen : d ≤ used.length) {x : Nat}
    (hge : efs.dataAreaStartBlock.toNat ≤ x) (hlt : x < efs.dataAreaStartBlock.toNat + d) :
    ∃ id ∈ used, id.toNat = x := by
  have hperm := (h.subperm hnodup).perm_of_length_le (by simpa using hlen)
  exact mem_map.mp (hperm.mem_iff.mpr (mem_range'_1.mpr ⟨hge, hlt⟩))

/-- As long as fewer than `d` blocks are used, some data block is free. -/
theorem exists_free (hg : Geometry efs b db d) (hlen : used.length < d) :
    ∃ i < d, efs.dataBitmap.bitAt blk i = false ∧ ∀ j < i, efs.dataBitmap.bitAt blk j = true := by
  have hcovered := hg.covered
  have hblocks := hg.dataBitmap_blocks
  -- otherwise all `d` numbers of the data area would be used
  have hex : ∃ i, i < d ∧ efs.dataBitmap.bitAt blk i = false := by
    by_contra hno
    have hall : ∀ j < d, ∃ id ∈ used, id.toNat = efs.dataAreaStartBlock.toNat + j := by
      intro j hj
      rw [← h.bits j (by omega)]
      cases hbit : efs.dataBitmap.bitAt blk j with
      | true => rfl
      | false => exact absurd ⟨j, hj, hbit⟩ hno
    have hsub : (List.range d).map (efs.dataAreaStartBlock.toNat + ·) ⊆
        used.map toNat := by
      intro x hx
      rw [mem_map] at hx ⊢
      obtain ⟨j, hj, rfl⟩ := hx
      exact hall j (mem_range.mp hj)
    have hnodup : ((List.range d).map (efs.dataAreaStartBlock.toNat + ·)).Nodup :=
      nodup_range.map fun x y hxy => Nat.add_left_cancel hxy
    have hle := (subperm_of_subset hnodup hsub).length_le
    simp only [length_map, length_range] at hle
    omega
  have hmin : ∀ j < Nat.find hex, efs.dataBitmap.bitAt blk j = true := by
    intro j hj
    have hlt := (Nat.find_spec hex).1
    have hnot := Nat.find_min hex hj
    cases hbit : efs.dataBitmap.bitAt blk j with
    | true => rfl
    | false => exact absurd ⟨by omega, hbit⟩ hnot
  exact ⟨Nat.find hex, (Nat.find_spec hex).1, (Nat.find_spec hex).2, hmin⟩

end

end DataArea

/-! ### The order of allocation -/

/-- `id` is the first block of the data area that is not in `used`. -/
structure LeastFree (efs : EasyFileSystem) (used : List UInt32) (id : UInt32) : Prop where
  new : id ∉ used
  ge : efs.dataAreaStartBlock.toNat ≤ id.toNat
  least : ∀ x, efs.dataAreaStartBlock.toNat ≤ x → x < id.toNat → ∃ y ∈ used, y.toNat = x

theorem LeastFree.unique {efs : EasyFileSystem} {used : List UInt32} {id' : UInt32}
    (h : LeastFree efs used id) (h' : LeastFree efs used id') : id = id' := by
  apply toNat_inj.mp
  by_contra hne
  rcases Nat.lt_or_gt_of_ne hne with hlt | hlt
  · obtain ⟨y, hy, hyx⟩ := h'.least _ h.ge hlt
    exact h.new (toNat_inj.mp hyx ▸ hy)
  · obtain ⟨y, hy, hyx⟩ := h.least _ h'.ge hlt
    exact h'.new (toNat_inj.mp hyx ▸ hy)

/-- The blocks `w` are what `alloc_data` hands out one after the other, beside `used`. -/
def Takes (efs : EasyFileSystem) : List UInt32 → List UInt32 → Prop
  | _, [] => True
  | used, id :: w => LeastFree efs used id ∧ Takes efs (used ++ [id]) w

namespace Takes

variable {efs : EasyFileSystem} {used used' w w' : List UInt32}

theorem congr (h : Takes efs used w) (hmem : ∀ id, id ∈ used ↔ id ∈ used') :
    Takes efs used' w := by
  induction w generalizing used used' with
  | nil => trivial
  | cons id w ih =>
    obtain ⟨⟨hnew, hge, hleast⟩, hw⟩ := h
    refine ⟨⟨fun hid => hnew ((hmem id).mpr hid), hge, fun x hx hlt => ?_⟩, ih hw ?_⟩
    · obtain ⟨y, hy, hyx⟩ := hleast x hx hlt
      exact ⟨y, (hmem y).mp hy, hyx⟩
    · intro x
      rw [mem_append, mem_append, hmem x]

theorem unique (h : Takes efs used w) (h' : Takes efs used w') (hlen : w.length = w'.length) :
    w = w' := by
  induction w generalizing used w' with
  | nil => exact (eq_nil_of_length_eq_zero hlen.symm).symm
  | cons id w ih =>
    cases w' with
    | nil => contradiction
    | cons id' w' =>
      obtain rfl := h.1.unique h'.1
      rw [ih h.2 h'.2 (Nat.succ.inj hlen)]

theorem append (h : Takes efs used w) (h' : Takes efs (used ++ w) w') :
    Takes efs used (w ++ w') := by
  induction w generalizing used with
  | nil => rwa [append_nil] at h'
  | cons id w ih =>
    refine ⟨h.1, ih h.2 ?_⟩
    rw [append_assoc]
    exact h'

theorem not_mem (h : Takes efs used w) (hid : id ∈ w) : id ∉ used := by
  induction w generalizing used with
  | nil => contradiction
  | cons x w ih =>
    rcases mem_cons.mp hid with rfl | hid
    · exact h.1.new
    · exact fun hmem => ih h.2 hid (mem_append_left _ hmem)

theorem nodup (h : Takes efs used w) : w.Nodup := by
  induction w generalizing used with
  | nil => exact nodup_nil
  | cons id w ih =>
    refine nodup_cons.mpr ⟨fun hid => h.2.not_mem hid ?_, ih h.2⟩
    exact mem_append_right _ (mem_singleton.mpr rfl)

end Takes

section Run

variable {efs : EasyFileSystem} {b db d cap : Nat} {blk : Nat → Block} {held : List Nat}
  {used : List UInt32}

/-- `alloc_data` returns the block of the least clear bit. -/
theorem run_allocData_of_clear (hg : Geometry efs b db d) (hi : i < 4096 * db)
    (hclear : efs.dataBitmap.bitAt blk i = false)
    (hbefore : ∀ j < i, efs.dataBitmap.bitAt blk j = true)
    (hheld : ∀ id, InDataBitmap efs id → id ∉ held) (hcap : held.length < cap) :
    efs.allocData.run cap false ⟨blk, held⟩ = some (ofNat i + efs.dataAreaStartBlock,
      ⟨efs.dataBitmap.setBit blk i, held⟩) := by
  have hbm := hg.dataBitmap_start
  have hblocks := hg.dataBitmap_blocks
  have hrun := efs.dataBitmap.run_alloc (i := i) (by omega) hcap hclear hbefore
    (fun m hm => hheld _ ⟨by omega, by omega⟩)
  rw [EasyFileSystem.allocData, Prog.run_bind_some hrun,
    Prog.run_bind_some (Prog.run_unwrap_some _ _)]
  rfl

section

variable (hg : Geometry efs b db d) (hdata : DataArea efs d blk used) (hlen : used.length < d)
  (hheld : ∀ id, InDataBitmap efs id → id ∉ held) (hcap : held.length < cap)
include hg hdata hlen hheld hcap

/-- `alloc_data` returns the first block of the data area that was not used, a zero block. -/
theorem run_allocData_least :
    ∃ id blk', efs.allocData.run cap false ⟨blk, held⟩ = some (id, ⟨blk', held⟩) ∧
      LeastFree efs used id ∧ blk' id.toNat = zero ∧ DataArea efs d blk' (used ++ [id]) ∧
      ∀ x, ¬InDataBitmap efs x → blk' x = blk x := by
  obtain ⟨i, hi, hclear, hbefore⟩ := hdata.exists_free hg hlen
  have hcovered := hg.covered
  have hend := hg.dataEnd
  have hstart := hg.dataArea
  have hbm := hg.dataBitmap_start
  have hblocks := hg.dataBitmap_blocks
  have hid : (ofNat i + efs.dataAreaStartBlock).toNat =
      efs.dataAreaStartBlock.toNat + i := by
    rw [toNat_add, toNat_ofNat', Nat.mod_eq_of_lt (by omega), Nat.mod_eq_of_lt (by omega), Nat.add_comm]
  have hoff : ∀ x, ¬InDataBitmap efs x → efs.dataBitmap.setBit blk i x = blk x := by
    intro x hx
    apply Bitmap.setBit_of_ne
    intro he
    exact hx ⟨by omega, by omega⟩
  have harea : ∀ j, efs.dataBitmap.setBit blk i (efs.dataAreaStartBlock.toNat + j) =
      blk (efs.dataAreaStartBlock.toNat + j) :=
    fun j => hoff _ fun hin => by have := hin.2; omega
  refine ⟨ofNat i + efs.dataAreaStartBlock, efs.dataBitmap.setBit blk i,
    run_allocData_of_clear hg (by omega) hclear hbefore hheld hcap, ?_, ?_, ?_, hoff⟩
  · refine ⟨fun hmem => ?_, by omega, fun x hge hlt => ?_⟩
    · rw [(hdata.bits i (by omega)).mpr ⟨_, hmem, hid⟩] at hclear
      exact Bool.false_ne_true hclear.symm
    · obtain ⟨j, rfl⟩ := Nat.exists_eq_add_of_le hge
      exact (hdata.bits j (by omega)).mp (hbefore j (by omega))
  · rw [hid, harea]
    exact hdata.free_zero i hi hclear
  · refine ⟨?_, ?_, ?_⟩
    · intro j hj
      rw [Bitmap.bitAt_setBit, Bool.or_eq_true, decide_eq_true_eq, hdata.bits j hj]
      simp only [mem_append, mem_singleton, or_and_right, exists_or, exists_eq_left, hid]
      constructor
      · rintro (rfl | h)
        · exact Or.inr rfl
        · exact Or.inl h
      · rintro (h | h)
        · exact Or.inr h
        · exact Or.inl (by omega)
    · intro id hmem
      rw [mem_append, mem_singleton] at hmem
      rcases hmem with hmem | rfl
      · exact hdata.range id hmem
      · rw [hid]
        omega
    · intro j hj hbit
      rw [Bitmap.bitAt_setBit, Bool.or_eq_false_iff] at hbit
      rw [harea]
      exact hdata.free_zero j hj hbit.2

/-- `alloc_data` returns a zero block of the data area that was not used. -/
theorem run_allocData :
    ∃ id blk', efs.allocData.run cap false ⟨blk, held⟩ = some (id, ⟨blk', held⟩) ∧
      id ∉ used ∧ blk' id.toNat = zero ∧ DataArea efs d blk' (used ++ [id]) ∧
      ∀ x, ¬InDataBitmap efs x → blk' x = blk x := by
  obtain ⟨id, blk', hrun, hleast, hrest⟩ := run_allocData_least hg hdata hlen hheld hcap
  exact ⟨id, blk', hrun, hleast.new, hrest⟩

end

/-- With every bit of the bitmap set, `alloc_data` unwraps nothing. -/
theorem panics_allocData (hg : Geometry efs b db d)
    (hfull : ∀ j < 4096 * db, efs.dataBitmap.bitAt blk j = true)
    (hheld : ∀ id, InDataBitmap efs id → id ∉ held) (hcap : held.length < cap) :
    efs.allocData.Panics cap ⟨blk, held⟩ := by
  have hbm := hg.dataBitmap_start
  have hblocks := hg.dataBitmap_blocks
  have hrun := efs.dataBitmap.run_alloc_full hcap (fun j hj => hfull j (by omega))
    fun m hm => hheld _ ⟨by omega, by omega⟩
  exact Prog.panics_bind_right hrun (Prog.panics_bind_left Prog.panics_panic _)

/-- The allocation loop: the first `n` blocks that were not used, distinct and zero. -/
theorem run_allocDatas (hg : Geometry efs b db d) (n : Nat) {v : List UInt32}
    (hdata : DataArea efs d blk used) (hlen : used.length + n ≤ d)
    (hheld : ∀ id, InDataBitmap efs id → id ∉ held) (hcap : held.length < cap) :
    ∃ w blk', (efs.allocDatas n v).run cap false ⟨blk, held⟩ = some (v ++ w, ⟨blk', held⟩) ∧
      w.length = n ∧ Takes efs used w ∧ (∀ id ∈ w, blk' id.toNat = zero) ∧
      DataArea efs d blk' (used ++ w) ∧ ∀ x, ¬InDataBitmap efs x → blk' x = blk x := by
  induction n generalizing v blk used with
  | zero =>
    refine ⟨[], blk, ?_, rfl, trivial, by simp, by simpa using hdata, fun _ _ => rfl⟩
    simp [EasyFileSystem.allocDatas]
  | succ n ih =>
    obtain ⟨id, blk₁, hrun, hleast, hzero, hdata₁, hoff₁⟩ :=
      run_allocData_least hg hdata (by omega) hheld hcap
    obtain ⟨w, blk', hrun', hlen', htakes, hw, hdata', hoff'⟩ := ih (v := v ++ [id]) hdata₁ (by
      rw [length_append, length_singleton]
      omega)
    have hbitmap : ¬InDataBitmap efs id.toNat := by
      intro hin
      have hrange := (hdata₁.range id (by simp)).1
      rw [InDataBitmap, hg.dataBitmap_start, hg.dataBitmap_blocks] at hin
      rw [hg.dataArea] at hrange
      omega
    refine ⟨id :: w, blk', ?_, by simp [hlen'], ⟨hleast, htakes⟩, ?_, ?_, ?_⟩
    · rw [EasyFileSystem.allocDatas, Prog.run_bind_some hrun, hrun']
      simp
    · rw [forall_mem_cons]
      exact ⟨by rw [hoff' _ hbitmap, hzero], hw⟩
    · rw [append_assoc] at hdata'
      exact hdata'
    · intro x hx
      rw [hoff' x hx, hoff₁ x hx]

theorem toNat_sub_dataAreaStart (hi : id.toNat = efs.dataAreaStartBlock.toNat + i) :
    (id - efs.dataAreaStartBlock).toNat = i := by
  rw [toNat_sub_of_le _ _ (le_iff_toNat_le.mpr (by omega))]
  omega

theorem run_zeroBlock (hid : id.toNat ∉ held) (hcap : held.length < cap) :
    (withModify id.toNat fun _ => pure ((), zero) : FsProg Unit).run cap false ⟨blk, held⟩ =
      some ((), ⟨update blk id.toNat zero, held⟩) :=
  Prog.run_withModify hid hcap rfl (fun h => by simp at h)

section

variable (hg : Geometry efs b db d)
include hg

theorem bitAt_zeroBlock (hge : efs.dataAreaStartBlock.toNat ≤ id.toNat) {j : Nat}
    (hj : j < 4096 * db) :
    efs.dataBitmap.bitAt (update blk id.toNat zero) j =
      efs.dataBitmap.bitAt blk j := by
  have hstart := hg.dataArea
  have hbm := hg.dataBitmap_start
  apply Bitmap.bitAt_congr
  exact update_of_ne (by omega) _ _

/-- The block is zero and its bit is cleared. -/
theorem DataArea.release (hdata : DataArea efs d blk (id :: used)) (hnew : id ∉ used)
    (hi : id.toNat = efs.dataAreaStartBlock.toNat + i) :
    DataArea efs d (efs.dataBitmap.clearBit (update blk id.toNat zero) i) used ∧
      ∀ x, ¬InDataBitmap efs x → x ≠ id.toNat →
        efs.dataBitmap.clearBit (update blk id.toNat zero) i x = blk x := by
  obtain ⟨hge, hlt⟩ := hdata.range id (by simp)
  have hcovered := hg.covered
  have hstart := hg.dataArea
  have hbm := hg.dataBitmap_start
  have hblocks := hg.dataBitmap_blocks
  have hset : efs.dataBitmap.bitAt (update blk id.toNat zero) i = true := by
    rw [bitAt_zeroBlock hg hge (by omega), hdata.bits i (by omega)]
    exact ⟨id, by simp, hi⟩
  have hoff : ∀ x, ¬InDataBitmap efs x →
      efs.dataBitmap.clearBit (update blk id.toNat zero) i x =
        update blk id.toNat zero x := by
    intro x hx
    apply Bitmap.clearBit_of_ne
    intro he
    exact hx ⟨by omega, by omega⟩
  refine ⟨⟨?_, ?_, ?_⟩, ?_⟩
  · intro j hj
    have hne : (j = i) ↔ id.toNat = efs.dataAreaStartBlock.toNat + j := by omega
    rw [Bitmap.bitAt_clearBit _ _ _ hset, bitAt_zeroBlock hg hge (by omega), Bool.and_eq_true,
      hdata.bits j hj, Bool.not_eq_true', decide_eq_false_iff_not, hne]
    simp only [mem_cons, exists_eq_or_imp]
    constructor
    · rintro ⟨hne, h | h⟩
      · exact absurd h hne
      · exact h
    · rintro ⟨x, hx, hxj⟩
      refine ⟨fun he => hnew ?_, Or.inr ⟨x, hx, hxj⟩⟩
      rw [toNat_inj.mp (he.trans hxj.symm)]
      exact hx
  · exact fun x hx => hdata.range x (mem_cons_of_mem _ hx)
  · intro j hj hbit
    rw [Bitmap.bitAt_clearBit _ _ _ hset, bitAt_zeroBlock hg hge (by omega)] at hbit
    rw [hoff _ fun hin => by have := hin.2; omega]
    by_cases hji : j = i
    · rw [hji, ← hi]
      exact update_self _ _ _
    · have hclear : efs.dataBitmap.bitAt blk j = false := by simpa [hji] using hbit
      rw [← hdata.free_zero j hj hclear]
      exact update_of_ne (by omega) _ _
  · intro x hx hne
    rw [hoff x hx]
    exact update_of_ne hne _ _

/-- `dealloc_data` of a used block leaves the others used and the block zero. -/
theorem run_deallocData (hdata : DataArea efs d blk (id :: used)) (hnew : id ∉ used)
    (hheld : ∀ x, InDataBitmap efs x → x ∉ held) (hid : id.toNat ∉ held)
    (hcap : held.length < cap) :
    ∃ blk', (efs.deallocData id).run cap false ⟨blk, held⟩ = some ((), ⟨blk', held⟩) ∧
      DataArea efs d blk' used ∧
      ∀ x, ¬InDataBitmap efs x → x ≠ id.toNat → blk' x = blk x := by
  obtain ⟨hge, hlt⟩ := hdata.range id (by simp)
  have hcovered := hg.covered
  have hbm := hg.dataBitmap_start
  have hblocks := hg.dataBitmap_blocks
  obtain ⟨i, hi⟩ := Nat.exists_eq_add_of_le hge
  have hset : efs.dataBitmap.bitAt (update blk id.toNat zero) i = true := by
    rw [bitAt_zeroBlock hg hge (by omega), hdata.bits i (by omega)]
    exact ⟨id, by simp, hi⟩
  have hrun := efs.dataBitmap.run_dealloc hcap hset (hheld _ ⟨by omega, by omega⟩)
  refine ⟨_, ?_, hdata.release hg hnew hi⟩
  rw [EasyFileSystem.deallocData, Prog.run_bind_some (run_zeroBlock hid hcap),
    toNat_sub_dataAreaStart hi]
  exact hrun

/-- `dealloc_data` of a block that is not used stops, after it has been zeroed. -/
theorem panics_deallocData (hdata : DataArea efs d blk used)
    (hge : efs.dataAreaStartBlock.toNat ≤ id.toNat)
    (hlt : id.toNat < efs.dataAreaStartBlock.toNat + 4096 * db) (hnew : id ∉ used)
    (hheld : ∀ x, InDataBitmap efs x → x ∉ held) (hid : id.toNat ∉ held)
    (hcap : held.length < cap) : (efs.deallocData id).Panics cap ⟨blk, held⟩ := by
  have hbm := hg.dataBitmap_start
  have hblocks := hg.dataBitmap_blocks
  obtain ⟨i, hi⟩ := Nat.exists_eq_add_of_le hge
  have hclear : efs.dataBitmap.bitAt (update blk id.toNat zero) i = false := by
    rw [bitAt_zeroBlock hg hge (by omega), ← Bool.not_eq_true, hdata.bits i (by omega)]
    rintro ⟨x, hx, hxi⟩
    rw [toNat_inj.mp (hxi.trans hi.symm)] at hx
    exact hnew hx
  rw [EasyFileSystem.deallocData]
  refine Prog.panics_bind_right (run_zeroBlock hid hcap) ?_
  rw [toNat_sub_dataAreaStart hi]
  exact efs.dataBitmap.panics_dealloc hcap hclear (hheld _ ⟨by omega, by omega⟩)

theorem run_deallocDatas (v : List UInt32) (hdata : DataArea efs d blk (v ++ used))
    (hnd : v.Nodup) (hdisj : ∀ id ∈ v, id ∉ used) (hheld : ∀ x, InDataBitmap efs x → x ∉ held)
    (hid : ∀ id ∈ v, id.toNat ∉ held) (hcap : held.length < cap) :
    ∃ blk', (efs.deallocDatas v).run cap false ⟨blk, held⟩ = some ((), ⟨blk', held⟩) ∧
      DataArea efs d blk' used ∧
      ∀ x, ¬InDataBitmap efs x → (∀ id ∈ v, x ≠ id.toNat) → blk' x = blk x := by
  induction v generalizing blk with
  | nil => exact ⟨blk, rfl, hdata, fun _ _ _ => rfl⟩
  | cons id v ih =>
    rw [nodup_cons] at hnd
    rw [forall_mem_cons] at hdisj hid
    have hnew : id ∉ v ++ used := by
      rw [mem_append, not_or]
      exact ⟨hnd.1, hdisj.1⟩
    obtain ⟨blk₁, hrun, hdata₁, hoff₁⟩ := run_deallocData hg hdata hnew hheld hid.1 hcap
    obtain ⟨blk', hrun', hdata', hoff'⟩ := ih hdata₁ hnd.2 hdisj.2 hid.2
    refine ⟨blk', ?_, hdata', ?_⟩
    · rw [EasyFileSystem.deallocDatas, Prog.run_bind_some hrun]
      exact hrun'
    · intro x hx hne
      rw [forall_mem_cons] at hne
      rw [hoff' x hx hne.2, hoff₁ x hx hne.1]

end

end Run

end RCore.EasyFs
