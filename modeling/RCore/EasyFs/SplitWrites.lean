import RCore.EasyFs.FsOps

/-!
# Writes one behind the other

What a write leaves is determined by the contents that it gives to the file: new blocks are the
first free ones, they are linked in the order in which they are taken, and the words that keep
no number are zero.  So a write followed by a write behind it leaves the same blocks as one
write of both buffers.
-/

namespace RCore.EasyFs

open RCore.Lib.LockedStore Function List Block

/-! ## Byte lists -/

theorem writeBytes_append (c : List UInt8) (off : Nat) (x y : List UInt8) (hy : y ≠ []) :
    writeBytes (writeBytes c off x) (off + x.length) y = writeBytes c off (x ++ y) := by
  have hpos := length_pos_of_ne_nil hy
  apply ext_getElem
  · simp only [length_writeBytes, length_append]
    omega
  · intro i hi hi'
    have h₁ := getD_writeBytes (writeBytes c off x) (off + x.length) y i
    have h₂ := getD_writeBytes c off (x ++ y) i
    rw [getElem?_eq_getElem hi, Option.getD_some, getD_writeBytes] at h₁
    rw [getElem?_eq_getElem hi', Option.getD_some, length_append] at h₂
    rw [h₁, h₂]
    by_cases hx : off ≤ i ∧ i < off + x.length
    · rw [if_neg (by omega), if_pos hx, if_pos (by omega), getElem?_append_left (by omega)]
    · by_cases hy' : off + x.length ≤ i ∧ i < off + x.length + y.length
      · rw [if_pos hy', if_pos (by omega), getElem?_append_right (by omega), Nat.sub_sub]
      · rw [if_neg hy', if_neg hx, if_neg (by omega)]

theorem readBytes_append (c : List UInt8) (off : Nat) (x y : List UInt8) :
    readBytes c off (x ++ y) =
      ((readBytes c off x).1 + (readBytes c (off + (readBytes c off x).1) y).1,
        (readBytes c off x).2 ++ (readBytes c (off + (readBytes c off x).1) y).2) := by
  simp only [readBytes, length_append]
  by_cases hend : x.length ≤ c.length - off
  · have hx : min x.length (c.length - off) = x.length := by omega
    have hxy : min (x.length + y.length) (c.length - off) =
        x.length + min y.length (c.length - (off + x.length)) := by omega
    have hdrop : ∀ n, (x ++ y).drop (x.length + n) = y.drop n := fun n => by
      rw [← drop_drop, drop_left]
    rw [hx, hxy, take_add, drop_drop, hdrop, drop_length, append_nil, append_assoc]
  · -- the first read has come to the end of the file
    have hx : min x.length (c.length - off) = c.length - off := by omega
    have hxy : min (x.length + y.length) (c.length - off) = c.length - off := by omega
    have hy : min y.length (c.length - (off + (c.length - off))) = 0 := by omega
    rw [hx, hxy, hy, drop_append_of_le_length (by omega)]
    simp

theorem blocksUsed_set_mono {contents : List (List UInt8)} {k : Nat} {c c₁ c₂ : List UInt8}
    (hk : contents[k]? = some c) (hlen : c₁.length ≤ c₂.length) :
    blocksUsed (contents.set k c₁) ≤ blocksUsed (contents.set k c₂) := by
  have hblocks : blocksFor c₁.length ≤ blocksFor c₂.length := by
    unfold blocksFor
    omega
  have hmono := blockCount_mono hblocks
  have h₁ := blocksUsed_set hk c₁
  have h₂ := blocksUsed_set hk c₂
  omega

/-! ## What a write leaves -/

/-- File `k` has been given the contents `c'`, with the first free blocks behind those that it
had; nothing else has changed. -/
structure Rewritten (efs : EasyFileSystem) (b d : Nat) (sb : SuperBlock) (blk : Nat → Block)
    (contents : List (List UInt8)) (k : Nat) (c' : List UInt8) (blk' : Nat → Block) : Prop where
  inv : FsInv efs b d sb blk' (contents.set k c')
  tidy : efs.TidyFiles blk' contents.length
  grown : ∃ w, Takes efs (efs.usedBlocks blk contents.length) w ∧
    efs.treeOf blk' k = efs.treeOf blk k ++ w
  others : ∀ k' < contents.length, k' ≠ k → efs.treeOf blk' k' = efs.treeOf blk k'
  record : ∃ d' : DiskInode,
    blk' (1 + b + k / 4) = d'.toBlock (blk (1 + b + k / 4)) (k % 4 * 128)
  frame : ∀ x, x ≠ 1 + b + k / 4 → ¬InDataBitmap efs x →
    (∀ id ∈ efs.treeOf blk' k, x ≠ id.toNat) → blk' x = blk x

namespace Rewritten

variable {efs : EasyFileSystem} {b db d : Nat} {sb : SuperBlock} {blk blk₁ blk₂ : Nat → Block}
  {contents : List (List UInt8)} {k : Nat} {c c₁ c₂ : List UInt8}

theorem of_extended {d' : DiskInode} (hp : Pending.Extended efs d blk contents.length k c d' blk₁)
    (h : FsInv efs b d sb blk contents) (hg : Geometry efs b db d) (hk : k < contents.length)
    (htidy : efs.TidyFiles blk contents.length) :
    Rewritten efs b d sb blk contents k c (update blk₁ (1 + b + k / 4)
        (d'.toBlock (blk (1 + b + k / 4)) (k % 4 * 128))) := by
  have hcount := h.count
  have hs := hp.stored h hg hk
  have htidy' := (hp.renewed h hg hk hp.tidy).tidy htidy
  rw [length_set] at htidy'
  have htree : efs.treeOf (update blk₁ (1 + b + k / 4)
      (d'.toBlock (blk (1 + b + k / 4)) (k % 4 * 128))) k =
      tree d' blk₁ (blocksFor c.length) := by
    rw [hs.treeOf_self hg]
    refine tree_congr (fun _ _ _ => rfl) fun id hid => ?_
    have hrange := hp.mem_range hg hid
    exact update_of_ne (by omega) _ _
  obtain ⟨w, hw, hgrown⟩ := hp.grown
  refine ⟨hs.inv h hg, htidy', ⟨w, hw, htree.trans hgrown⟩,
    fun k' hk' hne => hs.treeOf_other h hg hk' hne, ⟨d', update_self _ _ _⟩, ?_⟩
  intro x hne hbitmap hnot
  rw [htree] at hnot
  rw [update_of_ne hne]
  refine hp.frame x hbitmap (fun id hid => hnot id ?_) hnot
  rw [hgrown]
  exact mem_append_left _ hid

theorem mem_usedBlocks_iff (h : Rewritten efs b d sb blk contents k c blk₁)
    (hk : k < contents.length) {w : List UInt32} (hw : efs.treeOf blk₁ k = efs.treeOf blk k ++ w)
    (id : UInt32) : id ∈ efs.usedBlocks blk contents.length ++ w ↔
      id ∈ efs.usedBlocks blk₁ contents.length := by
  rw [mem_append, FsInv.mem_usedBlocks_iff hk, FsInv.mem_usedBlocks_iff hk, hw,
    mem_append, mem_append, mem_append, FsInv.mem_others, FsInv.mem_others]
  have hothers : (∃ k' < contents.length, k' ≠ k ∧ id ∈ efs.treeOf blk₁ k') ↔
      ∃ k' < contents.length, k' ≠ k ∧ id ∈ efs.treeOf blk k' := by
    refine exists_congr fun k' => and_congr_right fun hk' => and_congr_right fun hne => ?_
    rw [h.others k' hk' hne]
  rw [hothers]
  exact or_right_comm

theorem trans (hk : k < contents.length) (h₁ : Rewritten efs b d sb blk contents k c₁ blk₁)
    (h₂ : Rewritten efs b d sb blk₁ (contents.set k c₁) k c₂ blk₂) :
    Rewritten efs b d sb blk contents k c₂ blk₂ := by
  obtain ⟨inv, tidy, ⟨w₂, hw₂, hgrown₂⟩, others, ⟨d₂, hrec₂⟩, frame⟩ := h₂
  rw [set_set] at inv
  rw [length_set] at tidy hw₂ others
  obtain ⟨w₁, hw₁, hgrown₁⟩ := h₁.grown
  obtain ⟨d₁, hrec₁⟩ := h₁.record
  refine ⟨inv, tidy, ⟨w₁ ++ w₂, ?_, ?_⟩, ?_, ⟨d₂, ?_⟩, ?_⟩
  · exact hw₁.append (hw₂.congr fun id => (h₁.mem_usedBlocks_iff hk hgrown₁ id).symm)
  · rw [hgrown₂, hgrown₁, append_assoc]
  · intro k' hk' hne
    rw [others k' hk' hne, h₁.others k' hk' hne]
  · rw [hrec₂, hrec₁]
    exact patch_patch _ _ _ _ _
  · intro x hne hbitmap hnot
    rw [frame x hne hbitmap hnot]
    refine h₁.frame x hne hbitmap fun id hid => hnot id ?_
    rw [hgrown₂]
    exact mem_append_left _ hid

/-! ### The contents determine the blocks -/

section Unique

variable (hk : k < contents.length) (h₁ : Rewritten efs b d sb blk contents k c blk₁)
  (h₂ : Rewritten efs b d sb blk contents k c blk₂)

include h₁ hk in
theorem length_treeOf : (efs.treeOf blk₁ k).length = blockCount (blocksFor c.length) := by
  rw [h₁.inv.treeOf_eq (getElem?_set_self hk), tree, length_map, length_slots]

include h₁ h₂ hk

theorem treeOf_unique : efs.treeOf blk₁ k = efs.treeOf blk₂ k := by
  obtain ⟨w₁, hw₁, hgrown₁⟩ := h₁.grown
  obtain ⟨w₂, hw₂, hgrown₂⟩ := h₂.grown
  have hlen₁ := h₁.length_treeOf hk
  have hlen₂ := h₂.length_treeOf hk
  rw [hgrown₁, length_append] at hlen₁
  rw [hgrown₂, length_append] at hlen₂
  rw [hgrown₁, hgrown₂, hw₁.unique hw₂ (by omega)]

theorem usedBlocks_unique (id : UInt32) : id ∈ efs.usedBlocks blk₁ contents.length ↔
    id ∈ efs.usedBlocks blk₂ contents.length := by
  obtain ⟨w, -, hgrown⟩ := h₁.grown
  have hgrown₂ := (treeOf_unique hk h₁ h₂).symm.trans hgrown
  rw [← h₁.mem_usedBlocks_iff hk hgrown, h₂.mem_usedBlocks_iff hk hgrown₂]

theorem index_unique : efs.diskInode blk₁ k = efs.diskInode blk₂ k ∧
    ∀ s : Slot, s.InUse (blocksFor c.length) → s.isIndex = true →
      blk₁ (slotId (efs.diskInode blk₁ k) blk₁ s).toNat =
        blk₂ (slotId (efs.diskInode blk₁ k) blk₁ s).toNat := by
  have hget : (contents.set k c)[k]? = some c := getElem?_set_self hk
  have hk' : k < (contents.set k c).length := by rwa [length_set]
  have hsize₁ := (h₁.inv.rep hget).size
  have hsize₂ := (h₂.inv.rep hget).size
  have htidy₁ := h₁.tidy k hk
  have htidy₂ := h₂.tidy k hk
  have htree := treeOf_unique hk h₁ h₂
  rw [hsize₁] at htidy₁
  rw [hsize₂] at htidy₂
  rw [h₁.inv.treeOf_eq hget, h₂.inv.treeOf_eq hget] at htree
  apply tidy_unique htidy₁ htidy₂ htree
  · exact UInt32.toNat_inj.mp (hsize₁.trans hsize₂.symm)
  · rw [h₁.inv.types k hk', h₂.inv.types k hk']

theorem record_unique (hg : Geometry efs b db d) :
    blk₁ (1 + b + k / 4) = blk₂ (1 + b + k / 4) := by
  have hk' : k < (contents.set k c).length := by rwa [length_set]
  obtain ⟨d₁, hrec₁⟩ := h₁.record
  obtain ⟨d₂, hrec₂⟩ := h₂.record
  have heq := (index_unique hk h₁ h₂).1
  rw [h₁.inv.diskInode_eq hg hk', h₁.inv.diskInode_eq hg hk', hrec₁, hrec₂,
    DiskInode.ofBlock_toBlock d₁ _ (by omega), DiskInode.ofBlock_toBlock d₂ _ (by omega)] at heq
  rw [hrec₁, hrec₂, heq]

theorem bitmap_unique {x : Nat} (hx : InDataBitmap efs x) : blk₁ x = blk₂ x := by
  obtain ⟨hge, hlt⟩ := hx
  apply ext_bit
  intro j hj
  have hi : 4096 * (x - efs.dataBitmap.startBlockId) + j < 4096 * efs.dataBitmap.blocks := by omega
  have hbit : ∀ blk : Nat → Block, efs.dataBitmap.bitAt blk
      (4096 * (x - efs.dataBitmap.startBlockId) + j) = (blk x).bit j := by
    intro blk
    have hdiv : (4096 * (x - efs.dataBitmap.startBlockId) + j) / 4096 +
        efs.dataBitmap.startBlockId = x := by omega
    have hmod : (4096 * (x - efs.dataBitmap.startBlockId) + j) % 4096 = j := by omega
    rw [Bitmap.bitAt, hdiv, hmod]
  have hbits₁ := h₁.inv.data.bits _ hi
  have hbits₂ := h₂.inv.data.bits _ hi
  rw [hbit, length_set] at hbits₁ hbits₂
  simp only [usedBlocks_unique hk h₁ h₂] at hbits₁
  exact Bool.eq_iff_iff.mpr (hbits₁.trans hbits₂.symm)

theorem tree_unique {id : UInt32} (hid : id ∈ efs.treeOf blk₁ k) :
    blk₁ id.toNat = blk₂ id.toNat := by
  have hget : (contents.set k c)[k]? = some c := getElem?_set_self hk
  obtain ⟨hrecord, hindex⟩ := index_unique hk h₁ h₂
  have htree := treeOf_unique hk h₁ h₂
  rw [h₁.inv.treeOf_eq hget, h₂.inv.treeOf_eq hget] at htree
  rw [h₁.inv.treeOf_eq hget] at hid
  obtain ⟨s, hs, rfl⟩ := mem_map.mp hid
  have hslot : slotId (efs.diskInode blk₁ k) blk₁ s = slotId (efs.diskInode blk₂ k) blk₂ s :=
    map_inj_left.mp htree s hs
  cases s with
  | data j =>
    apply ext
    intro i hi
    have huse : j < blocksFor c.length := mem_slots.mp hs
    have hpos : 512 * j + i < 512 * blocksFor c.length := by omega
    have hdiv : (512 * j + i) / 512 = j := by omega
    have hmod : (512 * j + i) % 512 = i := by omega
    have hbyte₁ := (h₁.inv.rep hget).bytes _ hpos
    have hbyte₂ := (h₂.inv.rep hget).bytes _ hpos
    rw [fileByte, hdiv, hmod] at hbyte₁ hbyte₂
    rw [hbyte₁, hslot, hbyte₂]
  | indirect1 => exact hindex _ (mem_slots.mp hs) rfl
  | indirect2 => exact hindex _ (mem_slots.mp hs) rfl
  | sub a => exact hindex _ (mem_slots.mp hs) rfl

theorem unique (hg : Geometry efs b db d) : blk₁ = blk₂ := by
  funext x
  by_cases hrec : x = 1 + b + k / 4
  · rw [hrec]
    exact record_unique hk h₁ h₂ hg
  by_cases hbitmap : InDataBitmap efs x
  · exact bitmap_unique hk h₁ h₂ hbitmap
  by_cases htree : ∃ id ∈ efs.treeOf blk₁ k, x = id.toNat
  · obtain ⟨id, hid, rfl⟩ := htree
    exact tree_unique hk h₁ h₂ hid
  · have hfree : ∀ id ∈ efs.treeOf blk₁ k, x ≠ id.toNat := fun id hid he => htree ⟨id, hid, he⟩
    have hfree₂ := hfree
    rw [treeOf_unique hk h₁ h₂] at hfree₂
    rw [h₁.frame x hrec hbitmap hfree, h₂.frame x hrec hbitmap hfree₂]

end Unique

end Rewritten

/-- `write_at`, up to the final `block_cache_sync_all`. -/
theorem run_write_rewritten {efs : EasyFileSystem} {b db d cap : Nat} {sb : SuperBlock}
    {blk : Nat → Block} {contents : List (List UInt8)} {k : Nat} {c : List UInt8}
    (hcap : 2 < cap) (h : FsInv efs b d sb blk contents) (hg : Geometry efs b db d)
    (htidy : efs.TidyFiles blk contents.length) (hk : contents[k]? = some c) {off : Nat}
    {buf : List UInt8} (hpos : 0 < buf.length) (hbound : (writeBytes c off buf).length ≤ 8468480)
    (hspace : blocksUsed (contents.set k (writeBytes c off buf)) ≤ d) :
    ∃ blk', ((Inode.ofId efs (UInt32.ofNat k)).modifyDiskInode
        (Inode.writeBody efs off buf)).run cap false ⟨blk, []⟩ = some (buf.length, ⟨blk', []⟩) ∧
      Rewritten efs b d sb blk contents k (writeBytes c off buf) blk' := by
  obtain ⟨hlt, -⟩ := List.getElem?_eq_some_iff.mp hk
  obtain ⟨d', blk', hrun, hp⟩ := run_write_extended hcap h hg hk hpos hbound hspace
  exact ⟨_, hrun, .of_extended hp h hg hlt htidy⟩

end RCore.EasyFs
