import RCore.EasyFs.DataBlocks

/-!
# The areas of the device

`EasyFileSystem::create` computes five areas from the size of the device and the number of
blocks of the inode bitmap, in `u32` arithmetic.  When none of the operations wraps, the areas
lie behind each other and fill the device, the data bitmap is as large as it has to be, and the
inode records lie apart from each other in the inode area.
-/

namespace RCore.EasyFs

open List

/-! ## The arithmetic of `create` -/

namespace EasyFileSystem

/-- `data_total_blocks` as `create` computes it. -/
def dataTotalBlocks (totalBlocks inodeBitmapBlocks : UInt32) : UInt32 :=
  totalBlocks - 1 - (inodeBitmapBlocks + inodeAreaBlocks inodeBitmapBlocks)

/-- No operation of `create` on `u32` wraps, and the one conversion to `u32` does not truncate. -/
structure NoWrap (T b : UInt32) : Prop where
  inodeAreaBlocks : (Bitmap.maximum ⟨1, b.toNat⟩ * diskInodeSize + blockSz - 1) / blockSz < 2 ^ 32
  inodeTotalBlocks : b.toNat + (EasyFileSystem.inodeAreaBlocks b).toNat < 2 ^ 32
  superBlock : 1 ≤ T.toNat
  dataTotalBlocks : (b + EasyFileSystem.inodeAreaBlocks b).toNat ≤ (T - 1).toNat
  rounding : (EasyFileSystem.dataTotalBlocks T b).toNat + 4096 < 2 ^ 32
  dataAreaBlocks : ((EasyFileSystem.dataTotalBlocks T b + 4096) / 4097).toNat ≤
    (EasyFileSystem.dataTotalBlocks T b).toNat
  inodeAreaStart : 1 + b.toNat < 2 ^ 32
  dataBitmapStart : (1 + b).toNat + (EasyFileSystem.inodeAreaBlocks b).toNat < 2 ^ 32
  inodeEnd : 1 + (b + EasyFileSystem.inodeAreaBlocks b).toNat < 2 ^ 32
  dataAreaStart : (1 + (b + EasyFileSystem.inodeAreaBlocks b)).toNat +
    ((EasyFileSystem.dataTotalBlocks T b + 4096) / 4097).toNat < 2 ^ 32

end EasyFileSystem

open EasyFileSystem

variable {T b : UInt32}

theorem toNat_sub_one (h : 1 ≤ T.toNat) : (T - 1).toNat = T.toNat - 1 := by
  have hle : (1 : UInt32) ≤ T := UInt32.le_iff_toNat_le.mpr h
  rw [UInt32.toNat_sub_of_le _ _ hle]
  rfl

theorem EasyFileSystem.NoWrap.layoutFits (h : NoWrap T b) (hb : 1 ≤ b.toNat) : LayoutFits T b := by
  have harea : (EasyFileSystem.inodeAreaBlocks b).toNat = 1024 * b.toNat := by
    have hlt : (b.toNat * 4096 * 128 + 512 - 1) / 512 < 2 ^ 32 := h.inodeAreaBlocks
    have hnum : (b.toNat * 4096 * 128 + 512 - 1) / 512 = 1024 * b.toNat := by omega
    change (UInt32.ofNat ((b.toNat * 4096 * 128 + 512 - 1) / 512)).toNat = _
    rw [UInt32.toNat_ofNat', Nat.mod_eq_of_lt hlt, hnum]
  have hsum := h.inodeTotalBlocks
  have htotal : (b + EasyFileSystem.inodeAreaBlocks b).toNat = 1025 * b.toNat := by
    rw [UInt32.toNat_add, Nat.mod_eq_of_lt hsum, harea]
    omega
  have hone := toNat_sub_one h.superBlock
  have hsuper := h.superBlock
  have hle := h.dataTotalBlocks
  have hdata : (EasyFileSystem.dataTotalBlocks T b).toNat = T.toNat - 1 - 1025 * b.toNat := by
    rw [EasyFileSystem.dataTotalBlocks,
      UInt32.toNat_sub_of_le _ _ (UInt32.le_iff_toNat_le.mpr hle), hone, htotal]
  rw [htotal, hone] at hle
  have hround := h.rounding
  rw [hdata] at hround
  exact ⟨hb, by omega, hround⟩

theorem LayoutFits.noWrap (h : LayoutFits T b) : NoWrap T b := by
  have hlt := T.toNat_lt
  have hareas := h.areas
  have hbitmap := h.bitmap
  have harea := h.inodeAreaBlocks_eq
  have htotal := h.inodeTotal_eq
  have hdata : (EasyFileSystem.dataTotalBlocks T b).toNat = T.toNat - 1 - 1025 * b.toNat :=
    h.dataTotal_eq
  have hbits : ((EasyFileSystem.dataTotalBlocks T b + 4096) / 4097).toNat = _ :=
    h.dataBitmapBlocks_eq
  have hone := toNat_sub_one (show 1 ≤ T.toNat by omega)
  have hstart : (1 + b).toNat = 1 + b.toNat := h.geometry.inodeArea
  have hend : (1 + (b + EasyFileSystem.inodeAreaBlocks b)).toNat = 1 + 1025 * b.toNat := by
    rw [UInt32.toNat_add, htotal]
    exact Nat.mod_eq_of_lt (by simp; omega)
  have hnum : (b.toNat * 4096 * 128 + 512 - 1) / 512 < 2 ^ 32 := by omega
  exact ⟨hnum, by omega, by omega, by omega, by omega, by omega, by omega, by omega, by omega,
    by omega⟩

/-! ## The five areas -/

/-- Consecutive blocks of the device. -/
structure Area where
  start : Nat
  blocks : Nat
  deriving DecidableEq

def Area.ids (a : Area) : List Nat := List.range' a.start a.blocks

namespace EasyFileSystem

/-- Super block, inode bitmap, inode area, data bitmap and data area, as the file system value
and the super block of `create` give them. -/
def deviceAreas (totalBlocks inodeBitmapBlocks : UInt32) : List Area :=
  let efs := layout totalBlocks inodeBitmapBlocks
  let superBlock := superBlock totalBlocks inodeBitmapBlocks
  [⟨0, 1⟩,
    ⟨efs.inodeBitmap.startBlockId, efs.inodeBitmap.blocks⟩,
    ⟨efs.inodeAreaStartBlock.toNat, superBlock.inodeAreaBlocks.toNat⟩,
    ⟨efs.dataBitmap.startBlockId, efs.dataBitmap.blocks⟩,
    ⟨efs.dataAreaStartBlock.toNat, superBlock.dataAreaBlocks.toNat⟩]

/-- `get_data_block_id`: the block number of a block of the data area. -/
def getDataBlockId (self : EasyFileSystem) (dataBlockId : UInt32) : UInt32 :=
  self.dataAreaStartBlock + dataBlockId

end EasyFileSystem

namespace LayoutFits

variable (h : LayoutFits T b)
include h

theorem areas_eq : deviceAreas T b =
    [⟨0, 1⟩, ⟨1, b.toNat⟩, ⟨1 + b.toNat, 1024 * b.toNat⟩,
      ⟨1 + 1025 * b.toNat, (EasyFileSystem.superBlock T b).dataBitmapBlocks.toNat⟩,
      ⟨1 + 1025 * b.toNat + (EasyFileSystem.superBlock T b).dataBitmapBlocks.toNat,
        (EasyFileSystem.superBlock T b).dataAreaBlocks.toNat⟩] := by
  have hg := h.geometry
  have harea : (EasyFileSystem.superBlock T b).inodeAreaBlocks.toNat = 1024 * b.toNat :=
    h.inodeAreaBlocks_eq
  simp [deviceAreas, hg.inodeBitmap, hg.inodeArea, harea, hg.dataBitmap, hg.dataArea]

theorem flatMap_areas : (deviceAreas T b).flatMap Area.ids = List.range T.toNat := by
  have hend := h.dataEnd_eq
  rw [h.geometry.dataArea] at hend
  have hinode : 1 + 1025 * b.toNat = 1 + b.toNat + 1024 * b.toNat := by omega
  calc
    (deviceAreas T b).flatMap Area.ids
      = range' 0 1 ++ (range' 1 b.toNat ++ (range' (1 + b.toNat) (1024 * b.toNat) ++
          (range' (1 + b.toNat + 1024 * b.toNat)
            (EasyFileSystem.superBlock T b).dataBitmapBlocks.toNat ++
          range' (1 + b.toNat + 1024 * b.toNat +
            (EasyFileSystem.superBlock T b).dataBitmapBlocks.toNat)
            (EasyFileSystem.superBlock T b).dataAreaBlocks.toNat))) := by
        simp [h.areas_eq, Area.ids, hinode]
    _ = range' 0 (1 + (b.toNat + (1024 * b.toNat +
          ((EasyFileSystem.superBlock T b).dataBitmapBlocks.toNat +
            (EasyFileSystem.superBlock T b).dataAreaBlocks.toNat)))) := by
        rw [range'_append_1, range'_append_1, range'_append_1]
        exact range'_append_1
    _ = List.range T.toNat := by
        rw [range_eq_range']
        congr 1
        omega

theorem areas_disjoint : (deviceAreas T b).Pairwise fun a c => List.Disjoint a.ids c.ids := by
  have hnodup : ((deviceAreas T b).flatMap Area.ids).Nodup := by
    rw [h.flatMap_areas]
    exact nodup_range
  exact (nodup_flatMap.mp hnodup).2

theorem dataBitmap_least {n : Nat} (hn : n < (layout T b).dataBitmap.blocks) :
    Bitmap.maximum ⟨(layout T b).dataBitmap.startBlockId, n⟩ + n <
      (layout T b).dataBitmap.blocks + (EasyFileSystem.superBlock T b).dataAreaBlocks.toNat := by
  have hareas := h.areas
  have hbits := h.dataBitmapBlocks_eq
  have harea := h.dataAreaBlocks_eq
  rw [h.geometry.dataBitmap_blocks] at hn ⊢
  change n * 4096 + n < _
  omega

theorem getDiskInodePos_eq {i : UInt32} (hi : i.toNat < (layout T b).inodeBitmap.maximum) :
    ((layout T b).getDiskInodePos i).1.toNat =
        (layout T b).inodeAreaStartBlock.toNat + i.toNat / 4 ∧
      ((layout T b).getDiskInodePos i).2 = i.toNat % 4 * 128 := by
  have hmax : i.toNat < 4096 * b.toNat := by
    have hlt : i.toNat < b.toNat * 4096 := hi
    omega
  have hid : UInt32.ofNat i.toNat = i := UInt32.ofNat_toNat
  have hpos := h.geometry.ofId_eq i.toNat_lt hmax
  rw [hid, Inode.mk.injEq] at hpos
  rw [h.geometry.inodeArea]
  exact hpos

end LayoutFits

/-- **The areas of the device.**  Whenever the `u32` arithmetic of `create` neither wraps nor
truncates, the five areas lie behind each other and are the blocks `0` to `total_blocks - 1`, no
two of them overlap, the data bitmap has a bit for each block of the data area and would not with
fewer blocks, and the record of every inode number below the inode bitmap's `maximum()` lies in
one block of the inode area and shares no byte with another record. -/
theorem create_divides_device {T b : UInt32} (hb : 1 ≤ b.toNat) (h : NoWrap T b) :
    (deviceAreas T b).flatMap Area.ids = List.range T.toNat ∧
    (deviceAreas T b).Pairwise (fun a c => List.Disjoint a.ids c.ids) ∧
    (EasyFileSystem.superBlock T b).dataAreaBlocks.toNat ≤ (layout T b).dataBitmap.maximum ∧
    (∀ n < (layout T b).dataBitmap.blocks,
      Bitmap.maximum ⟨(layout T b).dataBitmap.startBlockId, n⟩ + n <
        (layout T b).dataBitmap.blocks + (EasyFileSystem.superBlock T b).dataAreaBlocks.toNat) ∧
    ∀ i : UInt32, i.toNat < (layout T b).inodeBitmap.maximum →
      (layout T b).inodeAreaStartBlock.toNat ≤ ((layout T b).getDiskInodePos i).1.toNat ∧
      ((layout T b).getDiskInodePos i).1.toNat < (layout T b).inodeAreaStartBlock.toNat +
        (EasyFileSystem.superBlock T b).inodeAreaBlocks.toNat ∧
      ((layout T b).getDiskInodePos i).2 + diskInodeSize ≤ blockSz ∧
      ∀ j : UInt32, j.toNat < (layout T b).inodeBitmap.maximum → i ≠ j →
        ((layout T b).getDiskInodePos i).1 ≠ ((layout T b).getDiskInodePos j).1 ∨
        ((layout T b).getDiskInodePos i).2 + diskInodeSize ≤ ((layout T b).getDiskInodePos j).2 ∨
        ((layout T b).getDiskInodePos j).2 + diskInodeSize ≤ ((layout T b).getDiskInodePos i).2 := by
  have hfit := h.layoutFits hb
  have hcovered := hfit.geometry.covered
  have hblocks := hfit.geometry.dataBitmap_blocks
  have harea : (EasyFileSystem.superBlock T b).inodeAreaBlocks.toNat = 1024 * b.toNat :=
    hfit.inodeAreaBlocks_eq
  have hsize : diskInodeSize = 128 ∧ blockSz = 512 := ⟨rfl, rfl⟩
  refine ⟨hfit.flatMap_areas, hfit.areas_disjoint, ?_, fun n hn => hfit.dataBitmap_least hn, ?_⟩
  · rw [Bitmap.maximum, hblocks]
    change _ ≤ _ * 4096
    omega
  intro i hi
  obtain ⟨hblock, hoff⟩ := hfit.getDiskInodePos_eq hi
  have hmax : i.toNat < b.toNat * 4096 := hi
  rw [hblock, hoff, hsize.1, hsize.2, harea]
  refine ⟨by omega, by omega, by omega, ?_⟩
  intro j hj hne
  obtain ⟨hblock', hoff'⟩ := hfit.getDiskInodePos_eq hj
  have hne' : i.toNat ≠ j.toNat := fun he => hne (UInt32.toNat_inj.mp he)
  rw [hoff']
  by_cases hsame : i.toNat / 4 = j.toNat / 4
  · right
    omega
  · left
    intro he
    rw [he, hblock'] at hblock
    omega

/-- The device of the user image's host-side test. -/
theorem create_divides_device_small :
    (deviceAreas 4096 1).flatMap Area.ids = List.range 4096 ∧
      deviceAreas 4096 1 = [⟨0, 1⟩, ⟨1, 1⟩, ⟨2, 1024⟩, ⟨1026, 1⟩, ⟨1027, 3069⟩] :=
  ⟨(create_divides_device (by decide) layoutFits_small.noWrap).1, by decide⟩

end RCore.EasyFs
