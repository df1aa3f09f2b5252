import RCore.EasyFs.Directory

/-!
# Creating and opening a file system

`create` leaves the device in the state of an empty root directory, and `open` on
the blocks of a file system computes the layout again that `create` computed.
-/

namespace RCore.EasyFs

open RCore.Lib.LockedStore Function List
open EasyFileSystem (layout superBlock usedBlocks)
open Prog (withModify withRead check)
open Block (bit_zero zero)

section Run

variable {cap : Nat} {blk : Nat → Block} {T b : UInt32}

theorem run_clearBlocks (hcap : 0 < cap) (l : List Nat) (blk : Nat → Block) :
    ∃ blk', (EasyFileSystem.clearBlocks l).run cap false ⟨blk, []⟩ = some ((), ⟨blk', []⟩) ∧
      (∀ i ∈ l, blk' i = zero) ∧ ∀ i, blk i = zero → blk' i = zero := by
  induction l generalizing blk with
  | nil => exact ⟨blk, rfl, by simp, fun _ h => h⟩
  | cons i l ih =>
    obtain ⟨blk', hrun, hzero, hkeep⟩ := ih (update blk i zero)
    have hfirst : (withModify i fun _ => pure ((), zero) : FsProg Unit).run cap false
        ⟨blk, []⟩ = some ((), ⟨update blk i zero, []⟩) :=
      Prog.run_withModify (by simp) (by simpa using hcap) rfl (fun hro => by simp at hro)
    refine ⟨blk', ?_, ?_, ?_⟩
    · rw [EasyFileSystem.clearBlocks, Prog.run_bind_some hfirst]
      exact hrun
    · rw [forall_mem_cons]
      exact ⟨hkeep i (update_self _ _ _), hzero⟩
    · intro j hj
      apply hkeep
      by_cases he : j = i
      · rw [he, update_self]
      · rw [update_of_ne he, hj]

theorem fsInv_nil {efs : EasyFileSystem} {n db d : Nat} {sb : SuperBlock}
    (hg : Geometry efs n db d) (hsuper : SuperBlock.ofBlock (blk 0) = sb)
    (hzero : ∀ i, 0 < i → i < 1 + 1025 * n + db + d → blk i = zero) :
    FsInv efs n d sb blk [] := by
  have hib := hg.inodeBitmap_start
  have hbm := hg.dataBitmap_start
  have hdb := hg.dataBitmap_blocks
  have harea := hg.dataArea
  refine ⟨hsuper, ?_, by simp, by simp, by simp, by simp, by simp, by simp, by simp, ?_, ?_, ?_⟩
  · intro k hk
    rw [Bitmap.bitAt, hzero _ (by omega) (by omega), bit_zero]
    rfl
  · intro j hj
    rw [Bitmap.bitAt, hzero _ (by omega) (by omega), bit_zero]
    simp [usedBlocks]
  · simp [usedBlocks]
  · intro j hj _
    exact hzero _ (by omega) (by omega)

/-- The invariant, for the areas that `create` lays out. -/
abbrev LaidOut (T b : UInt32) (blk : Nat → Block) (contents : List (List UInt8)) : Prop :=
  FsInv (layout T b) b.toNat (superBlock T b).dataAreaBlocks.toNat (superBlock T b) blk contents

abbrev RenewedOn (T b : UInt32) (blk : Nat → Block) (contents : List (List UInt8))
    (blk' : Nat → Block) (contents' : List (List UInt8)) : Prop :=
  Renewed (layout T b) b.toNat (superBlock T b).dataAreaBlocks.toNat (superBlock T b) blk contents
    blk' contents'

/-- `create`, up to the final `block_cache_sync_all`, makes an empty root directory. -/
theorem run_format (hcap : 0 < cap) (hfit : LayoutFits T b) (blk : Nat → Block) :
    ∃ blk', (EasyFileSystem.format T b).run cap false ⟨blk, []⟩ = some (layout T b, ⟨blk', []⟩) ∧
      LaidOut T b blk' [[]] ∧ (layout T b).TidyFiles blk' 1 := by
  have hg := hfit.geometry
  have hpos := hfit.inodeBitmap_pos
  have hareas := hfit.areas
  have hbits := hfit.dataBitmapBlocks_eq
  have harea := hfit.dataAreaBlocks_eq
  obtain ⟨blk₁, hrun₁, hzero, -⟩ := run_clearBlocks hcap (List.range T.toNat) blk
  have hsuper : (withModify 0 fun x =>
      pure ((), (superBlock T b).toBlock x) : FsProg Unit).run cap false
        ⟨blk₁, []⟩ = some ((), ⟨update blk₁ 0 ((superBlock T b).toBlock (blk₁ 0)), []⟩) :=
    Prog.run_withModify (by simp) (by simpa using hcap) rfl (fun hro => by simp at hro)
  have hnil : LaidOut T b (update blk₁ 0 ((superBlock T b).toBlock (blk₁ 0))) [] := by
    apply fsInv_nil hg
    · rw [update_self]
      exact SuperBlock.ofBlock_toBlock _ _
    · intro i hi hlt
      rw [update_of_ne (by omega)]
      exact hzero i (mem_range.mpr (by omega))
  obtain ⟨blk', hrun₂, hnew⟩ := run_newInode hcap hnil hg (by simp only [length_nil]; omega)
    (by simp)
  refine ⟨blk', ?_, hnew.inv, hnew.tidy fun k hk => absurd hk (Nat.not_lt_zero k)⟩
  rw [EasyFileSystem.format, Prog.run_bind_some hrun₁, Prog.run_bind_some hsuper,
    Prog.run_bind_some (run_allocInode hcap hnil hg (by simp only [length_nil]; omega))]
  refine (Prog.run_bind_some (Prog.run_check_true _)).trans ?_
  exact (Prog.run_bind_some hrun₂).trans rfl

/-- `open` accepts the super block and computes the layout that `create` computed. -/
theorem run_openEfs {ro : Bool} {n d : Nat} {contents : List (List UInt8)} (hcap : 0 < cap)
    (h : FsInv (layout T b) n d (superBlock T b) blk contents) :
    EasyFileSystem.openEfs.run cap ro ⟨blk, []⟩ = some (layout T b, ⟨blk, []⟩) := by
  have hvalid : (superBlock T b).isValid = true := by
    simp [SuperBlock.isValid, superBlock, SuperBlock.initial]
  refine Prog.run_withRead (by simp) (by simpa using hcap) ?_
  simp only [h.superBlock]
  rw [hvalid, Prog.run_bind_some (Prog.run_check_true _)]
  simp only [Prog.run_pure, layout, UInt32.add_assoc]
  rfl

end Run

end RCore.EasyFs
