import RCore.EasyFs.FsProperties
import RCore.Lib.StoreAccess

/-!
# Writes of no bytes

`write_at` with an empty buffer at an offset within the file grows nothing, but the loop of
`DiskInode::write_at` runs its body once all the same, for the block that has the offset.  At
the end of a file that fills its last block there is no such block: the word that is looked up
keeps no number, and the block that is requested is the one with the super block.
-/

namespace RCore.EasyFs

open RCore.Lib.LockedStore List DiskInode
open EasyFileSystem (layout)
open Prog (withModify withRead check)
open Slot
open Prog (fails_bind_left requests_bind_run requests_pure run_bind_some run_withRead)
open UInt32 (ofNat)
open Inode (ofId writeBody)

/-! ## The programs -/

theorem fillIndirect2_same (a b : Nat) (indirect2 : Block) :
    fillIndirect2 a b 0 indirect2 [] a b = pure ([], indirect2) := by
  rw [fillIndirect2, if_neg (by omega)]

theorem increaseIndirect2_same (d : DiskInode) {n : Nat} (hn : 128 < n) :
    d.increaseIndirect2 [] n n = (do
      let _ ← (withModify d.indirect2.toNat fun indirect2 => pure (([] : List UInt32), indirect2))
      pure d) := by
  have hfill : (fun indirect2 => fillIndirect2 ((n - 128) / 128) ((n - 128) % 128)
      (n - 128 - (n - 128)) indirect2 [] ((n - 128) / 128) ((n - 128) % 128)) =
      fun indirect2 => pure ([], indirect2) := by
    rw [Nat.sub_self]
    exact funext (fillIndirect2_same _ _)
  rw [increaseIndirect2, allocIndirect2, inodeIndirect1Count_eq, if_neg (by omega), ← hfill]
  rfl

theorem increaseIndirect1_same (d : DiskInode) {n : Nat} (hn : 28 < n) :
    d.increaseIndirect1 [] n n = (do
      let _ ← (withModify d.indirect1.toNat fun indirect1 => pure (([] : List UInt32), indirect1))
      if 156 < n then do
        let _ ← (withModify d.indirect2.toNat fun indirect2 =>
          pure (([] : List UInt32), indirect2))
        pure d
      else pure d) := by
  have hzero : min (n - 28) 128 - (n - 28) = 0 := by omega
  have hmax : max (n - 28) (min (n - 28) 128) = n - 28 := by omega
  rw [increaseIndirect1_eq, allocIndirect1, inodeDirectCount_eq, if_neg (by omega), hzero, hmax]
  by_cases h156 : 156 < n
  · have hmore : 128 < n - 28 := by omega
    rw [if_pos h156, ← increaseIndirect2_same d hmore]
    simp only [if_pos hmore]
    rfl
  · have hmore : ¬128 < n - 28 := by omega
    rw [if_neg h156]
    simp only [if_neg hmore]
    rfl

/-- `increase_size` to the size that the file has takes the index blocks and leaves them. -/
theorem increaseSize_same (d : DiskInode) :
    d.increaseSize d.size [] =
      if 28 < d.dataBlocks.toNat then do
        let _ ← (withModify d.indirect1.toNat fun indirect1 => pure (([] : List UInt32), indirect1))
        if 156 < d.dataBlocks.toNat then do
          let _ ← (withModify d.indirect2.toNat fun indirect2 =>
            pure (([] : List UInt32), indirect2))
          pure d
        else pure d
      else pure d := by
  have hself : ({ d with size := d.size } : DiskInode) = d := rfl
  have hnum : dataBlocksOf d.size = d.dataBlocks := rfl
  have hzero : min d.dataBlocks.toNat 28 - d.dataBlocks.toNat = 0 := by omega
  have hmax : max d.dataBlocks.toNat (min d.dataBlocks.toNat 28) = d.dataBlocks.toNat := by omega
  rw [increaseSize_eq, hself, hnum, hzero, hmax]
  by_cases h28 : 28 < d.dataBlocks.toNat
  · rw [if_pos h28, ← increaseIndirect1_same d h28]
    exact if_pos h28
  · rw [if_neg h28]
    exact if_neg h28

variable {off : Nat}

/-- `write_at` of an empty buffer is one round of the loop. -/
theorem writeAt_nil (d : DiskInode) (hoff : off ≤ d.size.toNat) :
    d.writeAt off [] = (do
      let id ← d.getBlockId (off / 512)
      (withModify id.toNat fun dataBlock => pure ((), dataBlock.patch (off % 512) 0 fun _ => 0))
      pure 0) := by
  have hlt := d.size.toNat_lt
  have hadd : usizeAdd off ([] : List UInt8).length = off :=
    Nat.mod_eq_of_lt (by simp only [length_nil]; omega)
  have hstop : min off d.size.toNat = off := by omega
  have hend : endOfBlock off off = off := by
    unfold endOfBlock blockSz
    omega
  unfold writeAt
  simp only [hadd, hstop]
  unfold writeLoop
  simp only [hend, Nat.sub_self, dite_true, Nat.le_refl, decide_true]
  rfl

/-! ## Blocks that the file has -/

/-- Block number `x` is one of the blocks of a file of `n` data blocks. -/
def Own (d : DiskInode) (blk : Nat → Block) (n x : Nat) : Prop :=
  ∃ id ∈ tree d blk n, id.toNat = x

section Run

variable {cap : Nat} {ro : Bool} {d : DiskInode} {blk : Nat → Block} {held : List Nat} {n : Nat}

theorem own_slot {s : Slot} (hs : s.InUse n) : Own d blk n (slotId d blk s).toNat :=
  ⟨_, slotId_mem_tree hs, rfl⟩

theorem own_indirect1 (h : 28 < n) : Own d blk n d.indirect1.toNat := own_slot (s := .indirect1) h

theorem own_indirect2 (h : 156 < n) : Own d blk n d.indirect2.toNat := own_slot (s := .indirect2) h

variable (hfree : ∀ x, Own d blk n x → x ∉ held) (hcap : held.length < cap)
include hfree hcap

/-- `increase_size` to the size that the file has changes nothing and keeps to its blocks. -/
theorem run_increaseSize_same (hn : d.dataBlocks.toNat = n) :
    (d.increaseSize d.size []).run cap ro ⟨blk, held⟩ = some (d, ⟨blk, held⟩) ∧
      ∀ x ∈ (d.increaseSize d.size []).requests (plain Block cap) ⟨blk, held⟩, Own d blk n x := by
  -- a block of the file that is taken to be modified and left as it is
  have htake : ∀ x, Own d blk n x →
      (withModify x fun b => pure (([] : List UInt32), b) : FsProg (List UInt32)).run cap ro
        ⟨blk, held⟩ = some ([], ⟨blk, held⟩) ∧
      (withModify x fun b => pure (([] : List UInt32), b) : FsProg (List UInt32)).requests
        (plain Block cap) ⟨blk, held⟩ = [x] := by
    intro x hx
    exact ⟨run_withModify_same (hfree x hx) hcap, Prog.requests_withModify (hfree x hx) hcap⟩
  rw [increaseSize_same, hn]
  by_cases h28 : 28 < n
  · have h1 : Own d blk n d.indirect1.toNat := own_indirect1 h28
    obtain ⟨hrun₁, hreq₁⟩ := htake _ h1
    rw [if_pos h28, run_bind_some hrun₁, requests_bind_run hrun₁, hreq₁]
    by_cases h156 : 156 < n
    · have h2 : Own d blk n d.indirect2.toNat := own_indirect2 h156
      obtain ⟨hrun₂, hreq₂⟩ := htake _ h2
      rw [if_pos h156, run_bind_some hrun₂, requests_bind_run hrun₂, hreq₂]
      refine ⟨rfl, ?_⟩
      simp only [requests_pure, append_nil, cons_append, nil_append, forall_mem_cons]
      exact ⟨h1, h2, by simp⟩
    · rw [if_neg h156]
      refine ⟨rfl, ?_⟩
      simp only [requests_pure, append_nil, forall_mem_cons]
      exact ⟨h1, by simp⟩
  · rw [if_neg h28]
    exact ⟨rfl, fun x hx => absurd hx not_mem_nil⟩

/-- The first step of `get_block_id` below the doubly indirect block. -/
theorem run_readIndirect2 (ro : Bool) {a : Nat} (hn : 156 < n) (ha : a < 128) :
    (withRead d.indirect2.toNat fun indirect2 => do
      check (decide (a < 128))
      pure (indirect2.word a) : FsProg UInt32).run cap ro ⟨blk, held⟩ =
        some (slotId d blk (.sub a), ⟨blk, held⟩) := by
  apply run_withRead (hfree _ (own_indirect2 hn)) hcap
  rw [decide_eq_true ha, run_bind_some (Prog.run_check_true _)]
  rfl

/-- `get_block_id` of a block that the file has keeps to its blocks. -/
theorem requests_getBlockId {j : Nat} (hn : n ≤ 16540) (hj : j < n) :
    ∀ x ∈ (d.getBlockId j).requests (plain Block cap) ⟨blk, held⟩, Own d blk n x := by
  rw [getBlockId, inodeDirectCount_eq, indirect1Bound_eq, inodeIndirect1Count_eq]
  by_cases h28 : j < 28
  · rw [if_pos h28]
    exact fun x hx => absurd hx not_mem_nil
  · rw [if_neg h28]
    by_cases h156 : j < 156
    · have h1 : Own d blk n d.indirect1.toNat := own_indirect1 (by omega)
      rw [if_pos h156, Prog.requests_withRead (hfree _ h1) hcap]
      simp only [requests_pure, forall_mem_cons]
      exact ⟨h1, by simp⟩
    · have h2 : Own d blk n d.indirect2.toNat := own_indirect2 (by omega)
      have hsub : Own d blk n (slotId d blk (.sub ((j - 156) / 128))).toNat :=
        own_slot (show 156 + 128 * ((j - 156) / 128) < n by omega)
      have ha : (j - 156) / 128 < 128 := by omega
      have hfirst := run_readIndirect2 hfree hcap false (show 156 < n by omega) ha
      rw [if_neg h156, requests_bind_run hfirst, Prog.requests_withRead (hfree _ h2) hcap,
        Prog.requests_withRead (hfree _ hsub) hcap, decide_eq_true ha, Prog.requests_check_true]
      simp only [requests_pure, cons_append, nil_append, forall_mem_cons]
      exact ⟨h2, hsub, by simp⟩

/-- `write_at` of an empty buffer within a block that the file has. -/
theorem run_writeAt_nil (ro : Bool) (hn : n ≤ 16540) (hin : off / 512 < n)
    (hoff : off ≤ d.size.toNat) :
    (d.writeAt off []).run cap ro ⟨blk, held⟩ = some (0, ⟨blk, held⟩) ∧
      ∀ x ∈ (d.writeAt off []).requests (plain Block cap) ⟨blk, held⟩, Own d blk n x := by
  have hid : Own d blk n (slotId d blk (.data (off / 512))).toNat := own_slot hin
  have hget : (d.getBlockId (off / 512)).run cap ro ⟨blk, held⟩ = _ :=
    run_getBlockId d hn hin (fun id hid => hfree _ ⟨id, hid, rfl⟩) hcap
  have hsame : ∀ b : Block, b.patch (off % 512) 0 (fun _ => 0) = b :=
    fun b => b.patch_self (by simp)
  rw [writeAt_nil d hoff]
  simp only [hsame]
  have hmodify : (withModify (slotId d blk (.data (off / 512))).toNat fun b => pure ((), b) :
      FsProg Unit).run cap ro ⟨blk, held⟩ = some ((), ⟨blk, held⟩) :=
    run_withModify_same (hfree _ hid) hcap
  constructor
  · rw [run_bind_some hget, run_bind_some hmodify]
    rfl
  · rw [requests_bind_run hget, requests_bind_run hmodify,
      Prog.requests_withModify (hfree _ hid) hcap]
    intro x hx
    simp only [requests_pure, append_nil, mem_append, mem_singleton] at hx
    rcases hx with hx | rfl
    · exact requests_getBlockId hfree hcap hn hin x hx
    · exact hid

/-! ## The block behind the last one -/

/-- In a tidy tree, `get_block_id` of the block behind the last one comes to block 0, or
returns it. -/
theorem getBlockId_missing (htidy : Tidy d blk n) (hn : n < 16540) :
    0 ∈ (d.getBlockId n).requests (plain Block cap) ⟨blk, held⟩ ∨
      (d.getBlockId n).run cap false ⟨blk, held⟩ = some (0, ⟨blk, held⟩) := by
  have hdata : ¬Slot.InUse n (.data n) := Nat.lt_irrefl n
  rw [getBlockId, inodeDirectCount_eq, indirect1Bound_eq, inodeIndirect1Count_eq]
  by_cases h28 : n < 28
  · have hzero := htidy.slotId_eq_zero hdata fun p hp =>
      absurd ((parent_data_direct h28).symm.trans hp) (by simp)
    rw [slotId_data_direct d blk h28] at hzero
    rw [if_pos h28, hzero]
    exact Or.inr rfl
  rw [if_neg h28]
  by_cases h156 : n < 156
  · rw [if_pos h156]
    by_cases hfirst : n = 28
    · have hzero := htidy.slotId_eq_zero (s := .indirect1) (show ¬28 < n by omega)
        fun p hp => absurd hp (by simp [Slot.parent])
      have hzero' : d.indirect1.toNat = 0 := by rw [show d.indirect1 = 0 from hzero]; rfl
      rw [hzero']
      exact Or.inl (Prog.mem_requests_withRead _)
    · have hzero := htidy.slotId_eq_zero hdata fun p hp => by
        cases hp.symm.trans (parent_data_indirect1 (by omega) h156)
        refine ⟨show 28 < n by omega, ?_⟩
        rw [Slot.entry, if_neg h28, if_pos h156]
        omega
      rw [slotId_data_indirect1 d blk (by omega) h156] at hzero
      refine Or.inr (run_withRead (hfree _ (own_indirect1 (by omega))) hcap ?_)
      rw [hzero]
      rfl
  rw [if_neg h156]
  by_cases hfirst : n = 156
  · have hzero := htidy.slotId_eq_zero (s := .indirect2) (show ¬156 < n by omega)
      fun p hp => absurd hp (by simp [Slot.parent])
    have hzero' : d.indirect2.toNat = 0 := by rw [show d.indirect2 = 0 from hzero]; rfl
    rw [hzero']
    exact Or.inl (Prog.mem_requests_bind _ (Prog.mem_requests_withRead _))
  have ha : (n - 156) / 128 < 128 := by omega
  have hread := run_readIndirect2 hfree hcap false (show 156 < n by omega) ha
  by_cases hborder : (n - 156) % 128 = 0
  · have hzero := htidy.slotId_eq_zero (s := .sub ((n - 156) / 128))
      (show ¬156 + 128 * ((n - 156) / 128) < n by omega) fun p hp => by
        cases hp
        exact ⟨show 156 < n by omega, ha⟩
    refine Or.inl ?_
    rw [requests_bind_run hread, hzero]
    exact mem_append_right _ (Prog.mem_requests_withRead _)
  · have hsub : Slot.InUse n (.sub ((n - 156) / 128)) :=
      show 156 + 128 * ((n - 156) / 128) < n by omega
    have hzero := htidy.slotId_eq_zero hdata fun p hp => by
      cases hp.symm.trans (parent_data_indirect2 (j := n) (by omega))
      refine ⟨hsub, ?_⟩
      rw [Slot.entry, if_neg h28, if_neg h156]
      omega
    rw [slotId_data_indirect2 d blk (by omega)] at hzero
    refine Or.inr ((run_bind_some hread).trans ?_)
    refine run_withRead (hfree _ (own_slot hsub)) hcap ?_
    rw [hzero]
    rfl

/-- So does `write_at` of an empty buffer at the end of a file that fills its last block. -/
theorem zero_mem_requests_writeAt (htidy : Tidy d blk n) (hn : n < 16540)
    (hsize : d.size.toNat = 512 * n) :
    0 ∈ (d.writeAt (512 * n) []).requests (plain Block cap) ⟨blk, held⟩ := by
  have hdiv : 512 * n / 512 = n := by omega
  rw [writeAt_nil d (by omega), hdiv]
  rcases getBlockId_missing hfree hcap htidy hn with hmem | hrun
  · exact Prog.mem_requests_bind _ hmem
  · rw [requests_bind_run hrun]
    exact mem_append_right _ (Prog.mem_requests_bind _ (Prog.mem_requests_withModify _))

omit hfree in
theorem fails_writeAt_max (hsize : d.size.toNat = 512 * 16540) :
    (d.writeAt (512 * 16540) []).Fails cap ⟨blk, held⟩ := by
  rw [writeAt_nil d (by omega)]
  refine fails_bind_left ?_ _
  have hget : d.getBlockId (512 * 16540 / 512) = (do
      let indirect1 ← (withRead d.indirect2.toNat fun indirect2 => do
        check false
        pure (indirect2.word 128))
      withRead indirect1.toNat fun indirect1 => pure (indirect1.word 0)) := rfl
  rw [hget]
  refine fails_bind_left (Prog.fails_withRead hcap ?_) _
  exact fails_bind_left Prog.fails_check_false _

end Run

/-! ## The operation -/

/-- `Inode::increase_size` to the size that the file has. -/
theorem growInode_same (efs : EasyFileSystem) (d : DiskInode) :
    Inode.increaseSize efs d.size d = d.increaseSize d.size [] := by
  have hcheck : decide (d.size ≥ d.size) = true := decide_eq_true (UInt32.le_refl _)
  rw [Inode.increaseSize, if_neg (UInt32.lt_irrefl _), blocksNumNeeded, hcheck, UInt32.sub_self]
  rfl

section Operation

variable {efs : EasyFileSystem} {b db d : Nat} {sb : SuperBlock} {blk : Nat → Block}
  {contents : List (List UInt8)} {k : Nat} {c : List UInt8} {cap : Nat}
  (hcap : 2 < cap) (h : FsInv efs b d sb blk contents) (hg : Geometry efs b db d)
  (hk : contents[k]? = some c)
include h hg hk

theorem own_free : ∀ x, Own (efs.diskInode blk k) blk (blocksFor c.length) x →
    x ∉ [1 + b + k / 4] := by
  obtain ⟨hlt, -⟩ := List.getElem?_eq_some_iff.mp hk
  have hcount := h.count
  rintro x ⟨id, hid, rfl⟩
  exact (Pending.start h hk).not_held hg (by omega) id hid

include hcap

theorem run_growInode_same (hoff : off ≤ c.length) :
    (Inode.increaseSize efs (ofNat off) (efs.diskInode blk k)).run cap true
        ⟨blk, [1 + b + k / 4]⟩ = some (efs.diskInode blk k, ⟨blk, [1 + b + k / 4]⟩) ∧
      ∀ x ∈ (Inode.increaseSize efs (ofNat off) (efs.diskInode blk k)).requests
        (plain Block cap) ⟨blk, [1 + b + k / 4]⟩,
        Own (efs.diskInode blk k) blk (blocksFor c.length) x := by
  have hrep := h.rep hk
  have hbound := hrep.bound
  have hnum : (ofNat off).toNat = off := by
    rw [UInt32.toNat_ofNat']
    exact Nat.mod_eq_of_lt (by omega)
  rcases Nat.lt_or_eq_of_le hoff with hless | hend
  · have hsmaller : ofNat off < (efs.diskInode blk k).size := by
      rw [UInt32.lt_iff_toNat_lt, hnum, hrep.size]
      exact hless
    rw [Inode.increaseSize, if_pos hsmaller]
    exact ⟨rfl, fun x hx => absurd hx not_mem_nil⟩
  · have hsize : ofNat off = (efs.diskInode blk k).size := by
      rw [← UInt32.toNat_inj, hnum, hrep.size, hend]
    have hblocks : (efs.diskInode blk k).dataBlocks.toNat = blocksFor c.length := by
      rw [dataBlocks, toNat_dataBlocksOf (by rw [hrep.size]; exact hbound), hrep.size]
    rw [hsize, growInode_same]
    exact run_increaseSize_same (own_free h hg hk)
      (show [1 + b + k / 4].length < cap by rw [length_singleton]; omega) hblocks

theorem requests_write_nil (hoff : off ≤ c.length) :
    ((ofId efs (ofNat k)).writeAt efs off []).requests (plain Block cap) ⟨blk, []⟩ =
      (1 + b + k / 4) ::
        ((Inode.increaseSize efs (ofNat off) (efs.diskInode blk k)).requests
            (plain Block cap) ⟨blk, [1 + b + k / 4]⟩ ++
          ((efs.diskInode blk k).writeAt off []).requests (plain Block cap)
            ⟨blk, [1 + b + k / 4]⟩) := by
  obtain ⟨hlt, -⟩ := List.getElem?_eq_some_iff.mp hk
  have hbound := (h.rep hk).bound
  have hadd : usizeAdd off ([] : List UInt8).length = off :=
    Nat.mod_eq_of_lt (by simp only [length_nil]; omega)
  have hoffset : decide (k % 4 * 128 + diskInodeSize ≤ blockSz) = true := by
    rw [decide_eq_true_eq, diskInodeSize, blockSz]
    omega
  have hsync : ∀ (n : Nat) (v : View Block),
      (Prog.syncAll (pure n) : FsProg Nat).requests (plain Block cap) v = [] := by
    intro n v
    simp only [Prog.requests]
    cases (plain Block cap).syncAll v <;> rfl
  rw [Inode.writeAt, Prog.requests_bind_of_nil _ _ hsync, h.ofId_eq hg hlt, Inode.modifyDiskInode,
    Prog.requests_withModify (by simp) (by simp only [length_nil]; omega), hoffset,
    Prog.requests_check_true, Prog.requests_bind_of_nil _ _ (fun _ _ => rfl),
    ← h.diskInode_eq hg hlt, writeBody, hadd,
    requests_bind_run (run_growInode_same hcap h hg hk hoff).1,
    Prog.requests_bind_of_nil _ _ (fun _ _ => rfl)]

theorem run_write_nil_of {n : Nat} (hoff : off ≤ c.length)
    (hwrite : ((efs.diskInode blk k).writeAt off []).run cap true ⟨blk, [1 + b + k / 4]⟩ =
      some (n, ⟨blk, [1 + b + k / 4]⟩)) :
    ((ofId efs (ofNat k)).modifyDiskInode (writeBody efs off [])).run cap false
        ⟨blk, []⟩ = some (n, ⟨blk, []⟩) := by
  obtain ⟨hlt, -⟩ := List.getElem?_eq_some_iff.mp hk
  have hbound := (h.rep hk).bound
  have hadd : usizeAdd off ([] : List UInt8).length = off :=
    Nat.mod_eq_of_lt (by simp only [length_nil]; omega)
  have hok := h.typeOk k hlt
  rw [h.ofId_eq hg hlt] at hok
  have hback := toBlock_ofBlock (blk (1 + b + k / 4)) hok
  have hkeep : Function.update blk (1 + b + k / 4)
      ((efs.diskInode blk k).toBlock (blk (1 + b + k / 4)) (k % 4 * 128)) = blk := by
    rw [h.diskInode_eq hg hlt, hback, Function.update_eq_self]
  refine (run_modifyFile h hg hlt (by omega) ?_).trans
    (congrArg (fun blk' => some (n, (⟨blk', []⟩ : View Block))) hkeep)
  rw [writeBody, hadd,
    run_bind_some (Prog.run_of_readOnly (run_growInode_same hcap h hg hk hoff).1),
    run_bind_some (Prog.run_of_readOnly hwrite)]
  rfl

theorem fails_write_nil_of (hoff : off ≤ c.length)
    (hwrite : ((efs.diskInode blk k).writeAt off []).Fails cap ⟨blk, [1 + b + k / 4]⟩) :
    ((ofId efs (ofNat k)).writeAt efs off []).Fails cap ⟨blk, []⟩ := by
  obtain ⟨hlt, -⟩ := List.getElem?_eq_some_iff.mp hk
  have hbound := (h.rep hk).bound
  have hadd : usizeAdd off ([] : List UInt8).length = off :=
    Nat.mod_eq_of_lt (by simp only [length_nil]; omega)
  refine fails_bind_left (fails_modifyFile h hg hlt (by omega) ?_) _
  rw [writeBody, hadd]
  exact Prog.fails_bind_right (run_growInode_same hcap h hg hk hoff).1 (fails_bind_left hwrite _)

theorem write_nil_settles (hoff : off ≤ c.length) :
    (∃ r, ((ofId efs (ofNat k)).writeAt efs off []).run cap false ⟨blk, []⟩ =
        some r) ∨
      ((ofId efs (ofNat k)).writeAt efs off []).Fails cap ⟨blk, []⟩ := by
  have hheld : [1 + b + k / 4].length < cap := by
    rw [length_singleton]
    omega
  rcases settles_writeAt_nil (d := efs.diskInode blk k) hheld off with ⟨n, hrun⟩ | hfail
  · exact Or.inl ⟨_, (run_bind_some (run_write_nil_of hcap h hg hk hoff hrun)).trans rfl⟩
  · exact Or.inr (fails_write_nil_of hcap h hg hk hoff hfail)

theorem run_write_nil_within (hoff : off ≤ c.length) (hin : ¬(off = c.length ∧ 512 ∣ c.length)) :
    ((ofId efs (ofNat k)).modifyDiskInode (writeBody efs off [])).run cap false
        ⟨blk, []⟩ = some (0, ⟨blk, []⟩) ∧
      ∀ x ∈ ((ofId efs (ofNat k)).writeAt efs off []).requests (plain Block cap)
        ⟨blk, []⟩,
        x = 1 + b + k / 4 ∨ Own (efs.diskInode blk k) blk (blocksFor c.length) x := by
  have hrep := h.rep hk
  have hblocks := blocksFor_le hrep.bound
  have hblock : off / 512 < blocksFor c.length := by
    unfold blocksFor
    omega
  obtain ⟨-, hgrow⟩ := run_growInode_same hcap h hg hk hoff
  obtain ⟨hwrite, hwrite'⟩ := run_writeAt_nil (own_free h hg hk)
    (show [1 + b + k / 4].length < cap by rw [length_singleton]; omega) true hblocks hblock
    (by rw [hrep.size]; exact hoff)
  refine ⟨run_write_nil_of hcap h hg hk hoff hwrite, ?_⟩
  rw [requests_write_nil hcap h hg hk hoff]
  intro x hx
  rw [mem_cons, mem_append] at hx
  exact hx.imp_right fun hx => hx.elim (hgrow x) (hwrite' x)

theorem zero_mem_requests_write_nil (htidy : efs.TidyFiles blk contents.length) {n : Nat}
    (hlen : c.length = 512 * n) (hn : n < 16540) :
    0 ∈ ((ofId efs (ofNat k)).writeAt efs c.length []).requests (plain Block cap)
        ⟨blk, []⟩ := by
  obtain ⟨hlt, -⟩ := List.getElem?_eq_some_iff.mp hk
  have hrep := h.rep hk
  have hheld : [1 + b + k / 4].length < cap := by
    rw [length_singleton]
    omega
  have hblocks : blocksFor c.length = n := by
    unfold blocksFor
    omega
  have hself := htidy k hlt
  rw [hrep.size, hblocks] at hself
  have hzero := zero_mem_requests_writeAt (hblocks ▸ own_free h hg hk) hheld hself hn
    (hrep.size.trans hlen)
  rw [requests_write_nil hcap h hg hk le_rfl, hlen]
  exact mem_cons_of_mem _ (mem_append_right _ hzero)

theorem fails_write_nil_max (hlen : c.length = 512 * 16540) :
    ((ofId efs (ofNat k)).writeAt efs c.length []).Fails cap ⟨blk, []⟩ := by
  refine fails_write_nil_of hcap h hg hk le_rfl ?_
  rw [hlen]
  refine fails_writeAt_max ?_ ((h.rep hk).size.trans hlen)
  rw [length_singleton]
  omega

end Operation

/-! ## Runs -/

namespace Machine

/-- The blocks of the file behind a handle, index blocks included. -/
def blocksOf (m : Machine) (inode : Inode) : List UInt32 :=
  let diskInode := DiskInode.ofBlock (m.cache.content inode.blockId) inode.blockOffset
  tree diskInode m.cache.content (blocksFor diskInode.size.toNat)

/-- The blocks that `write_at` asks the block cache for. -/
def writeRequests (m : Machine) (inode : Inode) (off : Nat) (buf : List UInt8) : List Nat :=
  (inode.writeAt m.efs off buf).requests cacheBackend m.cache

end Machine

/-- `write_at` of an empty buffer returns 0, accesses only the block of the inode and the blocks
of the file, and changes no block. -/
structure EmptyWriteHarmless (m : Machine) (inode : Inode) (off : Nat) : Prop where
  result : ∃ m', m.call inode (.write off []) = some (.size 0, m') ∧
    m'.cache.content = m.cache.content
  accesses : ∀ x ∈ m.writeRequests inode off [],
    x = inode.blockId ∨ ∃ id ∈ m.blocksOf inode, id.toNat = x

section Runs

variable {T b : UInt32} {m : Machine} {contents : List (List UInt8)} {k off : Nat}
  {c : List UInt8} (hfit : LayoutFits T b) (h : ContentsInv T b m contents)
  (hk : contents[k]? = some c)
include hfit h hk

theorem ContentsInv.writeRequests_eq (hoff : off ≤ c.length) :
    m.writeRequests (ofId (layout T b) (ofNat k)) off [] =
      ((ofId (layout T b) (ofNat k)).writeAt
        (layout T b) off []).requests (plain Block blockCacheSize)
        ⟨m.cache.content, []⟩ := by
  rw [Machine.writeRequests, h.efs]
  exact cache_simulation.requests_eq h.holds.1
    (write_nil_settles blockCacheSize_gt h.inv hfit.geometry hk hoff)

theorem ContentsInv.emptyWriteHarmless (hoff : off ≤ c.length)
    (hin : ¬(off = c.length ∧ 512 ∣ c.length)) :
    EmptyWriteHarmless m (ofId (layout T b) (ofNat k)) off := by
  obtain ⟨hlt, -⟩ := List.getElem?_eq_some_iff.mp hk
  have hg := hfit.geometry
  obtain ⟨hrun, hrequests⟩ := run_write_nil_within blockCacheSize_gt h.inv hg hk hoff hin
  obtain ⟨s', hexec, hholds⟩ := exec_synced id h.holds.1 hrun
  have hwrite : ((ofId (layout T b) (ofNat k)).writeAt
      (layout T b) off []).exec cacheBackend m.cache = some (0, s') := hexec
  refine ⟨⟨{ m with cache := s' }, ?_, hholds.content_eq⟩, ?_⟩
  · rw [Machine.call, h.efs, hwrite]
    rfl
  · intro x hx
    rw [h.writeRequests_eq hfit hk hoff] at hx
    have hid : (ofId (layout T b) (ofNat k)).blockId =
        1 + b.toNat + k / 4 := by rw [h.inv.ofId_eq hg hlt]
    rw [hid]
    refine (hrequests x hx).imp_right fun hown => ?_
    rw [← (h.inv.rep hk).size] at hown
    exact hown

theorem ContentsInv.not_own_zero :
    ¬(0 = (ofId (layout T b) (ofNat k)).blockId ∨
      ∃ id ∈ m.blocksOf (ofId (layout T b) (ofNat k)),
        id.toNat = 0) := by
  obtain ⟨hlt, -⟩ := List.getElem?_eq_some_iff.mp hk
  rintro (hzero | ⟨id, hid, hzero⟩)
  · rw [h.inv.ofId_eq hfit.geometry hlt] at hzero
    simp only at hzero
    omega
  · have hrange := (h.inv.mem_range hfit.geometry hlt hid).1
    omega

theorem ContentsInv.zero_mem_writeRequests
    (htidy : (layout T b).TidyFiles m.cache.content contents.length) {n : Nat}
    (hlen : c.length = 512 * n) (hn : n < 16540) :
    0 ∈ m.writeRequests (ofId (layout T b) (ofNat k)) c.length [] := by
  rw [h.writeRequests_eq hfit hk le_rfl]
  exact zero_mem_requests_write_nil blockCacheSize_gt h.inv hfit.geometry hk htidy hlen hn

theorem ContentsInv.not_emptyWriteHarmless
    (htidy : (layout T b).TidyFiles m.cache.content contents.length)
    (hdvd : 512 ∣ c.length) :
    ¬EmptyWriteHarmless m (ofId (layout T b) (ofNat k)) c.length := by
  rintro ⟨⟨m', hcall, -⟩, haccesses⟩
  obtain ⟨n, hn⟩ := hdvd
  have hbound := (h.inv.rep hk).bound
  by_cases hmax : n < 16540
  · exact h.not_own_zero hfit hk (haccesses 0 (h.zero_mem_writeRequests hfit hk htidy hn hmax))
  · have hfail := fails_write_nil_max blockCacheSize_gt h.inv hfit.geometry hk (by omega)
    rw [Machine.call, h.efs, cache_simulation.exec_eq_none h.holds.1 hfail] at hcall
    cases hcall

end Runs

/-- **Writes of no bytes.**  In every state of a run, `write_at` of an empty buffer at an offset
within the file returns 0, keeps to the blocks of the file and changes nothing, if and only if
the offset is not the end of a file that fills its last block. -/
theorem empty_write_harmless_iff {T b : UInt32} (hfit : LayoutFits T b) {dev : Nat → Block}
    {m : Machine} {contents : List (List UInt8)} (h : InodeReaches T b dev m contents) {k : Nat}
    {inode : Inode} (hk : m.inodes[k]? = some inode) {off : Nat}
    (hoff : off ≤ (m.contentOf inode).length) :
    EmptyWriteHarmless m inode off ↔
      ¬(off = (m.contentOf inode).length ∧ blockSz ∣ (m.contentOf inode).length) := by
  have hinv := h.contentsInv hfit
  obtain ⟨c, hc, rfl⟩ := hinv.of_getElem_inodes hk
  rw [hinv.contentOf_eq hc] at hoff ⊢
  constructor
  · rintro hharmless ⟨rfl, hdvd⟩
    exact hinv.not_emptyWriteHarmless hfit hc (h.tidy hfit) hdvd hharmless
  · exact hinv.emptyWriteHarmless hfit hc hoff

/-- At the end of the directory of a file system with one file. -/
theorem empty_write_harmless_iff_directory : ∃ m inode,
    InodeReaches 4096 1 (fun _ => Block.zero) m (Files.contents [("a", [])]) ∧
      m.inodes[0]? = some inode ∧ (m.contentOf inode).length = 32 ∧
      EmptyWriteHarmless m inode 32 := by
  obtain ⟨m, h, -⟩ := exists_inodeReaches_oneFile
  have hinv := h.contentsInv layoutFits_small
  have hlen : (m.contentOf (Inode.rootInode m.efs)).length = 32 := by
    have hroot : Inode.rootInode m.efs =
        Inode.ofId (layout 4096 1) (UInt32.ofNat 0) := by rw [hinv.efs]; rfl
    rw [hroot, hinv.contentOf_eq (Files.contents_zero _), length_dirBytes]
    rfl
  have hk : m.inodes[0]? = some (Inode.rootInode m.efs) := rfl
  refine ⟨m, _, h, hk, hlen, ?_⟩
  rw [empty_write_harmless_iff layoutFits_small h hk (by rw [hlen]), hlen]
  decide

/-- An empty file has no blocks, and `write_at(0, [])` takes the block of the super block. -/
theorem InodeReaches.empty_file {T b : UInt32} (hfit : LayoutFits T b) {dev : Nat → Block}
    {m : Machine} {contents : List (List UInt8)} (h : InodeReaches T b dev m contents) {k : Nat}
    {inode : Inode} (hk : m.inodes[k]? = some inode) (hempty : contents[k]? = some []) :
    m.contentOf inode = [] ∧ m.blocksOf inode = [] ∧ inode.blockId ≠ 0 ∧
      0 ∈ m.writeRequests inode 0 [] ∧ ¬EmptyWriteHarmless m inode 0 := by
  have hinv := h.contentsInv hfit
  have htidy := h.tidy hfit
  obtain ⟨c, hc, rfl⟩ := hinv.of_getElem_inodes hk
  cases hc.symm.trans hempty
  have hzero := hinv.zero_mem_writeRequests hfit hc htidy (n := 0) rfl (by decide)
  have hharm := hinv.not_emptyWriteHarmless hfit hc htidy (Nat.dvd_zero 512)
  rw [length_nil] at hzero hharm
  refine ⟨hinv.contentOf_eq hc, ?_, fun he => hinv.not_own_zero hfit hc (Or.inl he.symm), hzero,
    hharm⟩
  have htree := hinv.inv.treeOf_eq hc
  exact htree

/-- On a new file. -/
theorem empty_write_takes_super_block : ∃ m inode,
    InodeReaches 4096 1 (fun _ => Block.zero) m (Files.contents [("a", [])]) ∧
      m.inodes[1]? = some inode ∧ m.contentOf inode = [] ∧ m.blocksOf inode = [] ∧
      inode.blockId ≠ 0 ∧ 0 ∈ m.writeRequests inode 0 [] ∧ ¬EmptyWriteHarmless m inode 0 := by
  obtain ⟨m, h, hfile⟩ := exists_inodeReaches_oneFile
  exact ⟨m, _, h, hfile, h.empty_file layoutFits_small hfile rfl⟩

end RCore.EasyFs
