import RCore.EasyFs.InodeGrowth
import RCore.EasyFs.InodeClear

/-!
# File contents

Byte `i` of a file is byte `i % BLOCK_SZ` of its data block `i / BLOCK_SZ`.  The
loops of `read_at` and `write_at` split a byte range at block borders; taken
together their rounds copy the range out of, and into, the file's bytes.
-/

namespace RCore.EasyFs

open RCore.Lib.LockedStore Function List DiskInode
open Prog (withModify withRead check)
open Slot
open Prog (run_bind_some run_pure settles_bind settles_pure)

variable {size : UInt32} {start stop offset : Nat} {buf : List UInt8} {f : Nat → UInt8}

/-! ## Sizes -/

/-- Number of data blocks of a file of `len` bytes. -/
def blocksFor (len : Nat) : Nat := (len + 511) / 512

/-- `INDIRECT2_BOUND * BLOCK_SZ`, the largest file. -/
def maxFileSize : Nat := indirect2Bound * blockSz

theorem maxFileSize_eq : maxFileSize = 8468480 := rfl

theorem blocksFor_le {len : Nat} (h : len ≤ 8468480) : blocksFor len ≤ 16540 := by
  unfold blocksFor
  omega

theorem le_blocksFor (len : Nat) : len ≤ 512 * blocksFor len := by
  unfold blocksFor
  omega

theorem blocksFor_mono {m n : Nat} (h : m ≤ n) : blocksFor m ≤ blocksFor n := by
  unfold blocksFor
  omega

theorem toNat_dataBlocksOf (h : size.toNat ≤ 8468480) :
    (dataBlocksOf size).toNat = blocksFor size.toNat := by
  have hadd : (size + 512).toNat = size.toNat + 512 := by
    rw [UInt32.toNat_add]
    exact Nat.mod_eq_of_lt (by simp; omega)
  have hsub : (size + 512 - 1).toNat = size.toNat + 511 := by
    rw [UInt32.toNat_sub_of_le _ _ (by rw [UInt32.le_iff_toNat_le, hadd]; simp), hadd]
    rfl
  rw [dataBlocksOf, UInt32.toNat_div, hsub]
  rfl

theorem toNat_totalBlocks (h : size.toNat ≤ 8468480) :
    (totalBlocks size).toNat = blockCount (blocksFor size.toNat) := by
  have hle := blocksFor_le h
  have htotal : totalBlocks size =
      UInt32.ofNat (blockCount (dataBlocksOf size).toNat) := by
    rw [totalBlocks, inodeDirectCount_eq, indirect1Bound_eq, inodeIndirect1Count_eq, blockCount]
    congr 1
    split <;> split <;> omega
  rw [htotal, toNat_dataBlocksOf h, UInt32.toNat_ofNat']
  apply Nat.mod_eq_of_lt
  unfold blockCount
  split <;> split <;> omega

theorem toNat_totalBlocks_sub {newSize : UInt32} (hbound : newSize.toNat ≤ 8468480)
    (hle : size.toNat ≤ newSize.toNat) :
    (totalBlocks newSize - totalBlocks size).toNat =
      blockCount (blocksFor newSize.toNat) - blockCount (blocksFor size.toNat) := by
  have hmono := blockCount_mono (blocksFor_mono hle)
  have hnew := toNat_totalBlocks hbound
  have hold := toNat_totalBlocks (hle.trans hbound)
  rw [UInt32.toNat_sub_of_le _ _ (by rw [UInt32.le_iff_toNat_le, hnew, hold]; exact hmono),
    hnew, hold]

/-! ## Bytes -/

/-- Byte `i` of the file with inode record `d`. -/
def fileByte (d : DiskInode) (blk : Nat → Block) (i : Nat) : UInt8 :=
  (blk (slotId d blk (data (i / 512))).toNat).byte (i % 512)

variable {d : DiskInode} {blk blk' : Nat → Block} {n : Nat}

theorem slotId_of_data_frame (hnd : (tree d blk n).Nodup)
    (hframe : ∀ id : Nat, (∀ j < n, (slotId d blk (data j)).toNat ≠ id) → blk' id = blk id)
    {s : Slot} (hs : s.InUse n) : slotId d blk' s = slotId d blk s := by
  refine slotId_congr (fun _ _ _ => rfl) (fun t ht hindex => hframe _ ?_) hs
  intro j hj he
  have hsame := slotId_inj hnd (s := data j) hj ht (UInt32.toNat_inj.mp he)
  rw [← hsame] at hindex
  exact Bool.false_ne_true hindex

theorem data_of_index_frame (hnd : (tree d blk' n).Nodup)
    (hframe : ∀ id : Nat, (∀ s : Slot, s.InUse n → s.isIndex = true →
      (slotId d blk' s).toNat ≠ id) → blk' id = blk id) {j : Nat} (hj : j < n) :
    blk' (slotId d blk' (data j)).toNat = blk (slotId d blk' (data j)).toNat := by
  apply hframe
  intro s hs hindex he
  have hsame := slotId_inj hnd hs (show Slot.InUse n (data j) from hj) (UInt32.toNat_inj.mp he)
  rw [hsame] at hindex
  exact Bool.false_ne_true hindex

theorem fileByte_congr {d' : DiskInode} {i : Nat}
    (hid : slotId d' blk' (data (i / 512)) = slotId d blk (data (i / 512)))
    (hblk : blk' (slotId d blk (data (i / 512))).toNat =
      blk (slotId d blk (data (i / 512))).toNat) :
    fileByte d' blk' i = fileByte d blk i := by
  rw [fileByte, hid, hblk]
  rfl

/-! ## Reading -/

section Run

variable {cap : Nat} {ro : Bool} {held : List Nat}

theorem endOfBlock_bounds (h : start < stop) :
    start < endOfBlock start stop ∧ endOfBlock start stop ≤ stop ∧
      endOfBlock start stop ≤ (start / 512 + 1) * 512 := by
  unfold endOfBlock blockSz
  omega

theorem endOfBlock_div (h : endOfBlock start stop ≠ stop) :
    endOfBlock start stop / 512 = start / 512 + 1 := by
  unfold endOfBlock blockSz at *
  omega

theorem map_byte_eq_fileByte (d : DiskInode) (blk : Nat → Block) {m : Nat}
    (hm : start + m ≤ (start / 512 + 1) * 512) :
    (List.range m).map (fun i =>
      (blk (slotId d blk (data (start / 512))).toNat).byte (start % 512 + i)) =
      (range' start m).map (fileByte d blk) := by
  rw [range'_eq_map_range, map_map]
  apply map_congr_left
  intro i hi
  rw [mem_range] at hi
  have hdiv : (start + i) / 512 = start / 512 := by omega
  have hmod : (start + i) % 512 = start % 512 + i := by omega
  rw [Function.comp_apply, fileByte, hdiv, hmod]

/-- The loop of `read_at` copies the bytes of the range into the buffer. -/
theorem run_readLoop (hn : n ≤ 16540) (hheld : ∀ id ∈ tree d blk n, id.toNat ∉ held)
    (hcap : held.length < cap) (hstop : stop ≤ 512 * n) {readSize : Nat} (hstart : start < stop)
    (hbuf : readSize + (stop - start) ≤ buf.length) :
    (d.readLoop stop start (start / 512) readSize buf).run cap ro ⟨blk, held⟩ =
      some ((readSize + (stop - start), buf.take readSize ++
        (range' start (stop - start)).map (fileByte d blk) ++
        buf.drop (readSize + (stop - start))), ⟨blk, held⟩) := by
  induction hk : stop - start using Nat.strongRecOn generalizing start readSize buf with
  | ind k ih =>
    subst hk
    obtain ⟨hlt, hle, hblock⟩ := endOfBlock_bounds hstart
    let stop' := endOfBlock start stop
    have hid : slotId d blk (data (start / 512)) ∈ tree d blk n :=
      slotId_mem_tree (show start / 512 < n by omega)
    have hbytes := map_byte_eq_fileByte d blk
      (show start + (stop' - start) ≤ (start / 512 + 1) * 512 by omega)
    let buf' := buf.take readSize ++ (range' start (stop' - start)).map (fileByte d blk) ++
      buf.drop (readSize + (stop' - start))
    have hcopy : (withRead (slotId d blk (data (start / 512))).toNat fun dataBlock =>
        pure (buf.take readSize ++ (List.range (stop' - start)).map
          (fun i => dataBlock.byte (start % blockSz + i)) ++
          buf.drop (readSize + (stop' - start))) : FsProg (List UInt8)).run cap ro ⟨blk, held⟩ =
        some (buf', ⟨blk, held⟩) := by
      apply Prog.run_withRead (hheld _ hid) hcap
      exact congrArg (fun l => some (buf.take readSize ++ l ++ buf.drop _, _)) hbytes
    rw [readLoop, run_bind_some (run_getBlockId d hn (show start / 512 < n by omega) hheld hcap)]
    refine (run_bind_some hcopy).trans ?_
    by_cases hend : stop' = stop
    · have hend' : endOfBlock start stop = stop := hend
      rw [dif_pos hend]
      simp [run_pure, buf', stop', hend']
    · rw [dif_neg hend, ← endOfBlock_div hend]
      have hlen : buf'.length = buf.length := by
        simp only [buf', length_append, length_take, length_map, length_range', length_drop]
        omega
      have hnext := ih (stop - stop') (by omega) (show stop' < stop by omega)
        (show readSize + (stop' - start) + (stop - stop') ≤ buf'.length by omega) rfl
      have hsum : readSize + (stop' - start) + (stop - stop') = readSize + (stop - start) := by
        omega
      have htake : buf'.take (readSize + (stop' - start)) =
          buf.take readSize ++ (range' start (stop' - start)).map (fileByte d blk) := by
        apply take_left'
        simp only [length_append, length_take, length_map, length_range']
        omega
      have hdrop : buf'.drop (readSize + (stop - start)) =
          buf.drop (readSize + (stop - start)) := by
        rw [← hsum, ← drop_drop, drop_left' (by
          simp only [length_append, length_take, length_map, length_range']
          omega), drop_drop]
      have hrange : range' start (stop - start) =
          range' start (stop' - start) ++ range' stop' (stop - stop') := by
        have hs : stop - start = (stop' - start) + (stop - stop') := by omega
        have hs' : stop' = start + (stop' - start) := by omega
        rw [hs, ← range'_append_1, ← hs']
      rw [hsum, htake, hdrop] at hnext
      rw [hrange, map_append, ← append_assoc]
      exact hnext

/-- `read_at` returns the number of bytes between the offset and the end of the file, at
most the buffer's length, and fills that many bytes. -/
theorem run_readAt (hsize : d.size.toNat ≤ 8468480)
    (hheld : ∀ id ∈ tree d blk (blocksFor d.size.toNat), id.toNat ∉ held)
    (hcap : held.length < cap) (hoff : offset < 2 ^ 64) (hbuf : buf.length < 2 ^ 63) :
    (d.readAt offset buf).run cap ro ⟨blk, held⟩ =
      some ((min buf.length (d.size.toNat - offset),
        (range' offset (min buf.length (d.size.toNat - offset))).map (fileByte d blk) ++
        buf.drop (min buf.length (d.size.toNat - offset))), ⟨blk, held⟩) := by
  have hle := le_blocksFor d.size.toNat
  have heq : d.readAt offset buf =
      if offset ≥ min ((offset + buf.length) % 2 ^ 64) d.size.toNat then pure (0, buf)
      else d.readLoop (min ((offset + buf.length) % 2 ^ 64) d.size.toNat) offset (offset / 512) 0
        buf := rfl
  rw [heq]
  -- an end that wraps around lies before the offset, as the size does
  by_cases hpast : offset ≥ min ((offset + buf.length) % 2 ^ 64) d.size.toNat
  · have hzero : min buf.length (d.size.toNat - offset) = 0 := by omega
    rw [if_pos hpast, hzero]
    rfl
  · have hstop : min ((offset + buf.length) % 2 ^ 64) d.size.toNat =
        offset + min buf.length (d.size.toNat - offset) := by omega
    rw [if_neg hpast, hstop]
    have hloop : (d.readLoop (offset + min buf.length (d.size.toNat - offset)) offset
        (offset / 512) 0 buf).run cap ro ⟨blk, held⟩ = _ :=
      run_readLoop (blocksFor_le hsize) hheld hcap (by omega) (by omega) (by omega)
    simpa using hloop

/-! ## Writing -/

/-- From `blk` to `blk'`, the bytes `[start, stop)` of the file have been replaced. -/
structure Wrote (d : DiskInode) (n start stop : Nat) (f : Nat → UInt8)
    (blk blk' : Nat → Block) : Prop where
  frame : ∀ id : Nat, (∀ j < n, (slotId d blk (data j)).toNat ≠ id) → blk' id = blk id
  bytes : ∀ i < 512 * n, fileByte d blk' i =
    if start ≤ i ∧ i < stop then f i else fileByte d blk i

theorem Wrote.tree_eq (h : Wrote d n start stop f blk blk') (hnd : (tree d blk n).Nodup) :
    tree d blk' n = tree d blk n := by
  apply map_congr_left
  intro s hs
  exact slotId_of_data_frame hnd h.frame (mem_slots.mp hs)

theorem Wrote.trans {mid : Nat} {blk₁ blk₂ : Nat → Block} (hnd : (tree d blk n).Nodup)
    (h : Wrote d n start mid f blk blk₁) (h' : Wrote d n mid stop f blk₁ blk₂) (hle : start ≤ mid)
    (hle' : mid ≤ stop) :
    Wrote d n start stop f blk blk₂ where
  frame := by
    intro id hid
    rw [h'.frame id, h.frame id hid]
    intro j hj
    rw [slotId_of_data_frame hnd h.frame (show Slot.InUse n (data j) from hj)]
    exact hid j hj
  bytes := by
    intro i hi
    rw [h'.bytes i hi, h.bytes i hi]
    by_cases hmid : i < mid
    · have hnot : ¬(mid ≤ i ∧ i < stop) := by omega
      have hiff : (start ≤ i ∧ i < stop) ↔ start ≤ i ∧ i < mid := by omega
      simp [if_neg hnot, hiff]
    · have hnot : ¬(start ≤ i ∧ i < mid) := by omega
      have hiff : (start ≤ i ∧ i < stop) ↔ mid ≤ i ∧ i < stop := by omega
      simp [if_neg hnot, hiff]

/-- One round of the loop of `write_at`. -/
theorem wrote_patch (hnd : (tree d blk n).Nodup) {stop' : Nat} (hlt : start < stop')
    (hblock : stop' ≤ (start / 512 + 1) * 512) (hn : start / 512 < n) :
    Wrote d n start stop' f blk (update blk (slotId d blk (data (start / 512))).toNat
        ((blk (slotId d blk (data (start / 512))).toNat).patch (start % 512) (stop' - start)
          fun i => f (start + i))) := by
  have hframe : ∀ id : Nat, (∀ j < n, (slotId d blk (data j)).toNat ≠ id) →
      update blk (slotId d blk (data (start / 512))).toNat
        ((blk (slotId d blk (data (start / 512))).toNat).patch (start % 512) (stop' - start)
          fun i => f (start + i)) id = blk id := by
    intro id hid
    exact update_of_ne (Ne.symm (hid _ hn)) _ _
  refine ⟨hframe, ?_⟩
  intro i hi
  have hi' : Slot.InUse n (data (i / 512)) := show i / 512 < n by omega
  rw [fileByte, slotId_of_data_frame hnd hframe hi']
  by_cases hsame : i / 512 = start / 512
  · rw [hsame, update_self, Block.byte_patch _ _ _ _ (Nat.mod_lt _ (by omega))]
    by_cases hin : start ≤ i ∧ i < stop'
    · have hidx : start + (i % 512 - start % 512) = i := by omega
      rw [if_pos hin, if_pos (by omega), hidx]
    · rw [if_neg hin, if_neg (by omega), fileByte, hsame]
  · have hne : (slotId d blk (data (i / 512))).toNat ≠
        (slotId d blk (data (start / 512))).toNat := by
      intro he
      have heq := slotId_inj hnd hi' (show Slot.InUse n (data (start / 512)) from hn)
        (UInt32.toNat_inj.mp he)
      exact hsame (Slot.data.inj heq)
    rw [update_of_ne hne, if_neg (by omega)]
    rfl

/-- The loop of `write_at` stores the buffer into the bytes of the range. -/
theorem run_writeLoop (buf : List UInt8) (hn : n ≤ 16540) (hcap : held.length < cap)
    (hstop : stop ≤ 512 * n) {writeSize : Nat} {blk : Nat → Block} (hnd : (tree d blk n).Nodup)
    (hheld : ∀ id ∈ tree d blk n, id.toNat ∉ held) (hstart : start < stop)
    (hpos : start = offset + writeSize) :
    ∃ blk', (d.writeLoop stop start (start / 512) writeSize buf).run cap false ⟨blk, held⟩ =
        some (writeSize + (stop - start), ⟨blk', held⟩) ∧
      Wrote d n start stop (fun i => buf[i - offset]?.getD 0) blk blk' := by
  induction hk : stop - start using Nat.strongRecOn generalizing start writeSize blk with
  | ind k ih =>
    subst hk
    obtain ⟨hlt, hle, hblock⟩ := endOfBlock_bounds hstart
    let stop' := endOfBlock start stop
    have hin : start / 512 < n := by omega
    have hid : slotId d blk (data (start / 512)) ∈ tree d blk n := slotId_mem_tree hin
    have hround := wrote_patch hnd (f := fun i => buf[i - offset]?.getD 0) hlt hblock hin
    have hbytes : (fun i => buf[start + i - offset]?.getD 0) =
        fun i => buf[writeSize + i]?.getD 0 := by
      funext i
      have hsub : start + i - offset = writeSize + i := by omega
      rw [hsub]
    simp only [hbytes] at hround
    have hmodify : (withModify (slotId d blk (data (start / 512))).toNat fun dataBlock =>
        pure ((), dataBlock.patch (start % blockSz) (stop' - start) fun i =>
          buf[writeSize + i]?.getD 0) : FsProg Unit).run cap false ⟨blk, held⟩ =
        some ((), ⟨_, held⟩) :=
      Prog.run_withModify (hheld _ hid) hcap rfl (fun h => by simp at h)
    rw [writeLoop, run_bind_some (run_getBlockId d hn hin hheld hcap)]
    by_cases hend : stop' = stop
    · have hend' : endOfBlock start stop = stop := hend
      rw [hend'] at hround
      refine ⟨_, (run_bind_some hmodify).trans ?_, hround⟩
      rw [dif_pos hend]
      simp [run_pure, blockSz, stop', hend']
    · have htree := hround.tree_eq hnd
      have hnd₁ := hnd
      have hheld₁ := hheld
      rw [← htree] at hnd₁ hheld₁
      obtain ⟨blk₂, hrun, hwrote⟩ := ih (stop - stop') (by omega) hnd₁ hheld₁
        (show stop' < stop by omega) (show stop' = offset + (writeSize + (stop' - start)) by omega)
        rfl
      refine ⟨blk₂, (run_bind_some hmodify).trans ?_, hround.trans hnd hwrote (by omega) (by omega)⟩
      have hsum : writeSize + (stop' - start) + (stop - stop') = writeSize + (stop - start) := by
        omega
      rw [dif_neg hend, ← endOfBlock_div hend, ← hsum]
      exact hrun

/-- `write_at` within the size of the file stores the whole buffer. -/
theorem run_writeAt (hsize : d.size.toNat ≤ 8468480)
    (hnd : (tree d blk (blocksFor d.size.toNat)).Nodup)
    (hheld : ∀ id ∈ tree d blk (blocksFor d.size.toNat), id.toNat ∉ held)
    (hcap : held.length < cap) (hpos : 0 < buf.length) (hfit : offset + buf.length ≤ d.size.toNat) :
    ∃ blk', (d.writeAt offset buf).run cap false ⟨blk, held⟩ =
        some (buf.length, ⟨blk', held⟩) ∧
      Wrote d (blocksFor d.size.toNat) offset (offset + buf.length)
        (fun i => buf[i - offset]?.getD 0) blk blk' := by
  have hle := le_blocksFor d.size.toNat
  have hmod : (offset + buf.length) % 2 ^ 64 = offset + buf.length := by omega
  have hmin : min (offset + buf.length) d.size.toNat = offset + buf.length := by omega
  obtain ⟨blk', hrun, hwrote⟩ := run_writeLoop buf (blocksFor_le hsize) hcap
    (show offset + buf.length ≤ 512 * blocksFor d.size.toNat by omega) hnd hheld
    (show offset < offset + buf.length by omega) (Nat.add_zero offset).symm
  refine ⟨blk', ?_, hwrote⟩
  have heq : d.writeAt offset buf = (do
      check (decide (offset ≤ min ((offset + buf.length) % 2 ^ 64) d.size.toNat))
      d.writeLoop (min ((offset + buf.length) % 2 ^ 64) d.size.toNat) offset (offset / 512) 0
        buf) := rfl
  have hcheck : decide (offset ≤ offset + buf.length) = true := by simp
  have hlen : 0 + (offset + buf.length - offset) = buf.length := by omega
  rw [hlen] at hrun
  rw [heq, hmod, hmin, hcheck, run_bind_some (Prog.run_check_true _)]
  exact hrun

/-- `get_block_id` changes no block, whatever the record holds. -/
theorem settles_getBlockId (hcap : held.length < cap) (innerId : Nat) :
    (d.getBlockId innerId).Settles cap ⟨blk, held⟩ := by
  unfold getBlockId
  split
  · exact settles_pure _
  split
  · exact Prog.settles_withRead hcap (settles_pure _)
  · refine settles_bind (Prog.settles_withRead hcap ?_) fun _ =>
      Prog.settles_withRead hcap (settles_pure _)
    exact settles_bind (Prog.settles_check _) fun _ => settles_pure _

/-- `write_at` of an empty buffer.  At the end of a file that fills its last block it looks up
a block that the file does not have, but it stores nothing there. -/
theorem settles_writeAt_nil (hcap : held.length < cap) (offset : Nat) :
    (d.writeAt offset []).Settles cap ⟨blk, held⟩ := by
  have hle : usizeAdd offset ([] : List UInt8).length ≤ offset := Nat.mod_le _ _
  unfold writeAt
  by_cases hcheck : offset ≤ min (usizeAdd offset ([] : List UInt8).length) d.size.toNat
  · have hstop : min (usizeAdd offset ([] : List UInt8).length) d.size.toNat =
        offset := by omega
    have hend : endOfBlock offset offset = offset := by
      unfold endOfBlock blockSz
      omega
    simp only [hstop]
    refine settles_bind (Prog.settles_check _) fun _ => ?_
    unfold writeLoop
    simp only [hend, Nat.sub_self, dite_true]
    refine settles_bind (settles_getBlockId hcap _) fun id => ?_
    refine settles_bind (Prog.settles_withModify hcap ?_) fun _ => settles_pure _
    simp only
    exact Block.patch_self _ (by simp)
  · simp only [decide_eq_false hcheck]
    exact Or.inr (Prog.fails_bind_left Prog.fails_check_false _)

end Run

end RCore.EasyFs
