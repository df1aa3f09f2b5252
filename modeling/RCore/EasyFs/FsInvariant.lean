import RCore.EasyFs.Tidy
import RCore.EasyFs.Vfs

/-!
# The invariant of the file system

The contents of the file system are a list of byte lists: entry 0 is the root
directory and entry `k` the file with inode number `k`.  `FsInv` relates them to
the blocks: the inode bitmap marks exactly the inodes in use, every record
represents its byte list, the block trees are pairwise disjoint and without
repetition, and the data bitmap and the free data blocks fit them.  `Stored` says that
one file has been given new contents, whatever the operation was; it restores the
invariant, and keeps the trees tidy.
-/

namespace RCore.EasyFs

open RCore.Lib.LockedStore DiskInode EasyFileSystem Inode
open Prog (withModify withRead check)
open UInt32 (ofNat toNat_inj)

variable {count k' : Nat} {id : UInt32} {c : List UInt8}

/-! ## Files -/

/-- The record of inode number `k`. -/
def EasyFileSystem.diskInode (efs : EasyFileSystem) (blk : Nat → Block) (k : Nat) : DiskInode :=
  DiskInode.ofBlock (blk (Inode.ofId efs (UInt32.ofNat k)).blockId)
    (Inode.ofId efs (UInt32.ofNat k)).blockOffset

/-- The blocks of the file with inode number `k`. -/
def EasyFileSystem.treeOf (efs : EasyFileSystem) (blk : Nat → Block) (k : Nat) : List UInt32 :=
  tree (efs.diskInode blk k) blk (blocksFor (efs.diskInode blk k).size.toNat)

/-- The blocks of the first `count` inodes. -/
def EasyFileSystem.usedBlocks (efs : EasyFileSystem) (blk : Nat → Block) (count : Nat) :
    List UInt32 :=
  (List.range count).flatMap (efs.treeOf blk)

/-- The trees of the first `count` inodes are tidy. -/
def EasyFileSystem.TidyFiles (efs : EasyFileSystem) (blk : Nat → Block) (count : Nat) : Prop :=
  ∀ k < count, Tidy (efs.diskInode blk k) blk (blocksFor (efs.diskInode blk k).size.toNat)

/-- Number of data blocks that contents need. -/
def blocksUsed (contents : List (List UInt8)) : Nat :=
  (contents.map fun c => blockCount (blocksFor c.length)).sum

/-- Record `d` represents the byte list `content`; the rest of its last block is zero. -/
structure FileRep (d : DiskInode) (blk : Nat → Block) (content : List UInt8) : Prop where
  size : d.size.toNat = content.length
  bound : content.length ≤ 8468480
  bytes : ∀ i < 512 * blocksFor content.length, fileByte d blk i = content[i]?.getD 0

/-- The type of inode number `k`. -/
def inodeType (k : Nat) : DiskInodeType := if k = 0 then .directory else .file

/-- The blocks hold a file system with the given contents. -/
structure FsInv (efs : EasyFileSystem) (b d : Nat) (sb : SuperBlock) (blk : Nat → Block)
    (contents : List (List UInt8)) : Prop where
  superBlock : SuperBlock.ofBlock (blk 0) = sb
  inodeBits : ∀ k < 4096 * b, efs.inodeBitmap.bitAt blk k = decide (k < contents.length)
  count : contents.length ≤ 4096 * b
  count_lt : contents.length < 2 ^ 32
  rep : ∀ {k c}, contents[k]? = some c → FileRep (efs.diskInode blk k) blk c
  types : ∀ k < contents.length, (efs.diskInode blk k).type_ = inodeType k
  typeOk : ∀ k < contents.length,
    DiskInode.TypeOk (blk (Inode.ofId efs (UInt32.ofNat k)).blockId)
      (Inode.ofId efs (UInt32.ofNat k)).blockOffset
  nodup : ∀ k < contents.length, (efs.treeOf blk k).Nodup
  disjoint : ∀ k < contents.length, ∀ k' < contents.length, k ≠ k' →
    ∀ id ∈ efs.treeOf blk k, id ∉ efs.treeOf blk k'
  data : DataArea efs d blk (efs.usedBlocks blk contents.length)

/-- An operation has led from `contents` to `contents'`, and has left tidy trees tidy. -/
structure Renewed (efs : EasyFileSystem) (b d : Nat) (sb : SuperBlock) (blk : Nat → Block)
    (contents : List (List UInt8)) (blk' : Nat → Block) (contents' : List (List UInt8)) :
    Prop where
  inv : FsInv efs b d sb blk' contents'
  tidy : efs.TidyFiles blk contents.length → efs.TidyFiles blk' contents'.length

theorem mem_usedBlocks {efs : EasyFileSystem} {blk : Nat → Block} :
    id ∈ efs.usedBlocks blk count ↔ ∃ k < count, id ∈ efs.treeOf blk k := by
  simp [usedBlocks]

theorem blocksUsed_set {contents : List (List UInt8)} {k : Nat} (h : contents[k]? = some c)
    (c' : List UInt8) :
    blocksUsed (contents.set k c') + blockCount (blocksFor c.length) =
      blocksUsed contents + blockCount (blocksFor c'.length) := by
  induction contents generalizing k with
  | nil => simp at h
  | cons x contents ih =>
    cases k with
    | zero =>
      simp only [List.getElem?_cons_zero, Option.some.injEq] at h
      subst h
      simp only [blocksUsed, List.set_cons_zero, List.map_cons, List.sum_cons]
      omega
    | succ k =>
      have hih := ih (by simpa using h)
      simp only [blocksUsed, List.set_cons_succ, List.map_cons, List.sum_cons] at hih ⊢
      omega

/-! ## Positions of inodes -/

namespace Geometry

variable {efs : EasyFileSystem} {b db d : Nat}

theorem ofId_eq (hg : Geometry efs b db d) {k : Nat} (hk : k < 2 ^ 32) (hk' : k < 4096 * b) :
    ofId efs (ofNat k) = ⟨1 + b + k / 4, k % 4 * 128⟩ := by
  have hend := hg.dataEnd
  have hfour : (ofNat (blockSz / diskInodeSize)).toNat = 4 := rfl
  have hid : (ofNat k).toNat = k := by
    rw [UInt32.toNat_ofNat']
    exact Nat.mod_eq_of_lt hk
  have hblock : (efs.inodeAreaStartBlock +
      ofNat k / ofNat (blockSz / diskInodeSize)).toNat = 1 + b + k / 4 := by
    have hdiv : k / 4 < 1024 * b := Nat.div_lt_of_lt_mul (by rw [← Nat.mul_assoc]; exact hk')
    rw [UInt32.toNat_add, UInt32.toNat_div, hid, hfour, hg.inodeArea, Nat.mod_eq_of_lt (by omega)]
  have hoffset : (ofNat k % ofNat (blockSz / diskInodeSize)).toNat = k % 4 := by
    rw [UInt32.toNat_mod, hid, hfour]
  change (⟨(efs.inodeAreaStartBlock + ofNat k /
      ofNat (blockSz / diskInodeSize)).toNat,
    (ofNat k % ofNat (blockSz / diskInodeSize)).toNat * 128⟩ : Inode) = _
  rw [hblock, hoffset]

end Geometry

namespace FsInv

variable {efs : EasyFileSystem} {b db d : Nat} {sb : SuperBlock} {blk blk' : Nat → Block}
  {contents : List (List UInt8)}

variable {k : Nat}

section

variable (h : FsInv efs b d sb blk contents)
include h

theorem ofId_eq (hg : Geometry efs b db d) (hk : k < contents.length) :
    ofId efs (ofNat k) = ⟨1 + b + k / 4, k % 4 * 128⟩ := by
  have hcount := h.count
  have hlt := h.count_lt
  exact hg.ofId_eq (by omega) (by omega)

theorem diskInode_eq (hg : Geometry efs b db d) (hk : k < contents.length) (blk' : Nat → Block) :
    efs.diskInode blk' k = ofBlock (blk' (1 + b + k / 4)) (k % 4 * 128) := by
  rw [diskInode, h.ofId_eq hg hk]

theorem treeOf_eq (hk : contents[k]? = some c) :
    efs.treeOf blk k = tree (efs.diskInode blk k) blk (blocksFor c.length) := by
  rw [treeOf, (h.rep hk).size]

theorem length_usedBlocks : (efs.usedBlocks blk contents.length).length = blocksUsed contents := by
  rw [usedBlocks, List.length_flatMap, blocksUsed]
  congr 1
  apply List.ext_getElem
  · simp
  · intro k hk hk'
    have hlt : k < contents.length := by simpa using hk
    simp only [List.getElem_map, List.getElem_range]
    rw [h.treeOf_eq (List.getElem?_eq_getElem hlt), tree, List.length_map, length_slots]

theorem mem_range (hg : Geometry efs b db d) (hk : k < contents.length)
    (hid : id ∈ efs.treeOf blk k) :
    1 + 1025 * b + db ≤ id.toNat ∧ id.toNat < 1 + 1025 * b + db + d := by
  have hrange := h.data.range id (mem_usedBlocks.mpr ⟨k, hk, hid⟩)
  rw [hg.dataArea] at hrange
  exact hrange

theorem file_frame (hk : contents[k]? = some c)
    (hrec : efs.diskInode blk' k = efs.diskInode blk k)
    (hblk : ∀ id ∈ efs.treeOf blk k, blk' id.toNat = blk id.toNat) :
    efs.treeOf blk' k = efs.treeOf blk k ∧ FileRep (efs.diskInode blk' k) blk' c := by
  have hrep := h.rep hk
  have htree : tree (efs.diskInode blk k) blk' (blocksFor c.length) =
      tree (efs.diskInode blk k) blk (blocksFor c.length) := by
    apply tree_congr (fun _ _ _ => rfl)
    rw [← h.treeOf_eq hk]
    exact hblk
  refine ⟨?_, ?_⟩
  · rw [h.treeOf_eq hk, ← htree, treeOf, hrec, hrep.size]
  · rw [hrec]
    refine ⟨hrep.size, hrep.bound, ?_⟩
    intro i hi
    have huse : Slot.InUse (blocksFor c.length) (.data (i / 512)) := by
      change i / 512 < _
      omega
    have hid : slotId (efs.diskInode blk k) blk' (.data (i / 512)) =
        slotId (efs.diskInode blk k) blk (.data (i / 512)) := by
      refine slotId_congr (fun _ _ _ => rfl) (fun s hs _ => hblk _ ?_) huse
      rw [h.treeOf_eq hk]
      exact slotId_mem_tree hs
    rw [fileByte_congr hid, hrep.bytes i hi]
    apply hblk
    rw [h.treeOf_eq hk]
    exact slotId_mem_tree huse

end

/-- The blocks of all files but number `k`. -/
def others (efs : EasyFileSystem) (blk : Nat → Block) (count k : Nat) : List UInt32 :=
  (List.range count).flatMap fun k' => if k' = k then [] else efs.treeOf blk k'

theorem mem_others :
    id ∈ others efs blk count k ↔ ∃ k' < count, k' ≠ k ∧ id ∈ efs.treeOf blk k' := by
  simp only [others, List.mem_flatMap, List.mem_range]
  constructor
  · rintro ⟨k', hk', hid⟩
    by_cases he : k' = k
    · simp [he] at hid
    · exact ⟨k', hk', he, by simpa [he] using hid⟩
  · rintro ⟨k', hk', he, hid⟩
    exact ⟨k', hk', by simpa [he] using hid⟩

theorem mem_others_length : id ∈ others efs blk count count ↔ id ∈ efs.usedBlocks blk count := by
  rw [mem_others, mem_usedBlocks]
  constructor
  · rintro ⟨k, hk, -, hid⟩
    exact ⟨k, hk, hid⟩
  · rintro ⟨k, hk, hid⟩
    exact ⟨k, hk, Nat.ne_of_lt hk, hid⟩

theorem mem_usedBlocks_iff (hk : k < count) :
    id ∈ efs.usedBlocks blk count ↔ id ∈ efs.treeOf blk k ++ others efs blk count k := by
  rw [mem_usedBlocks, List.mem_append, mem_others]
  constructor
  · rintro ⟨k', hk', hid⟩
    by_cases he : k' = k
    · exact Or.inl (he ▸ hid)
    · exact Or.inr ⟨k', hk', he, hid⟩
  · rintro (hid | ⟨k', hk', _, hid⟩)
    · exact ⟨k, hk, hid⟩
    · exact ⟨k', hk', hid⟩

theorem not_mem_others (h : FsInv efs b d sb blk contents) (hk : k < contents.length)
    (hid : id ∈ efs.treeOf blk k) : id ∉ others efs blk contents.length k := by
  rw [mem_others]
  rintro ⟨k', hk', hne, hid'⟩
  exact h.disjoint k' hk' k hk hne id hid' hid

/-- The records of the other inodes survive a write of record `k`. -/
theorem diskInode_of_ne (h : FsInv efs b d sb blk contents) (hg : Geometry efs b db d)
    (hk' : k' < contents.length) (hne : k' ≠ k) {d' : DiskInode}
    (hrec : blk' (1 + b + k / 4) = d'.toBlock (blk (1 + b + k / 4)) (k % 4 * 128))
    (hframe : k' / 4 ≠ k / 4 → blk' (1 + b + k' / 4) = blk (1 + b + k' / 4)) :
    efs.diskInode blk' k' = efs.diskInode blk k' ∧
      (TypeOk (blk' (1 + b + k' / 4)) (k' % 4 * 128) ↔
        TypeOk (blk (1 + b + k' / 4)) (k' % 4 * 128)) := by
  rw [h.diskInode_eq hg hk', h.diskInode_eq hg hk']
  by_cases hblock : k' / 4 = k / 4
  · rw [hblock, hrec]
    exact ⟨ofBlock_toBlock_of_ne d' _ (by omega) (by omega),
      typeOk_toBlock_of_ne d' _ (by omega) (by omega)⟩
  · rw [hframe hblock]
    exact ⟨rfl, Iff.rfl⟩

end FsInv

/-- File `k`, old or new, has been stored with the record `d'` and the contents `c'`; the
other files are as before. -/
structure Stored (efs : EasyFileSystem) (b d : Nat) (blk : Nat → Block)
    (contents : List (List UInt8)) (k : Nat) (d' : DiskInode) (c' : List UInt8)
    (blk' : Nat → Block) (contents' : List (List UInt8)) : Prop where
  index : contents'[k]? = some c'
  old : ∀ {k' c}, contents'[k']? = some c → k' ≠ k → contents[k']? = some c
  count_le : contents.length ≤ contents'.length
  count : contents'.length ≤ 4096 * b
  count_lt : contents'.length < 2 ^ 32
  superBlock : blk' 0 = blk 0
  inodeBits : ∀ i < 4096 * b, efs.inodeBitmap.bitAt blk' i = decide (i < contents'.length)
  record : blk' (1 + b + k / 4) = d'.toBlock (blk (1 + b + k / 4)) (k % 4 * 128)
  records : ∀ x, 1 + b ≤ x → x < 1 + 1025 * b → x ≠ 1 + b + k / 4 → blk' x = blk x
  files : ∀ id ∈ FsInv.others efs blk contents.length k, blk' id.toNat = blk id.toNat
  type_ : d'.type_ = inodeType k
  rep : FileRep d' blk' c'
  nodup : (tree d' blk' (blocksFor c'.length)).Nodup
  fresh : ∀ id ∈ tree d' blk' (blocksFor c'.length), id ∉ FsInv.others efs blk contents.length k
  data : DataArea efs d blk'
    (tree d' blk' (blocksFor c'.length) ++ FsInv.others efs blk contents.length k)

namespace Stored

variable {contents' : List (List UInt8)} {k : Nat} {d' : DiskInode} {c' : List UInt8}
  (hs : Stored efs b d blk contents k d' c' blk' contents')
  (h : FsInv efs b d sb blk contents) (hg : Geometry efs b db d)

include hs in
theorem lt_of_ne (hk' : k' < contents'.length) (hne : k' ≠ k) : k' < contents.length := by
  have hold := hs.old (List.getElem?_eq_getElem hk') hne
  exact (List.getElem?_eq_some_iff.mp hold).1

include hs hg

theorem ofId_eq (hk' : k' < contents'.length) :
    ofId efs (ofNat k') = ⟨1 + b + k' / 4, k' % 4 * 128⟩ := by
  have hcount := hs.count
  have hlt := hs.count_lt
  exact hg.ofId_eq (by omega) (by omega)

theorem diskInode_self : efs.diskInode blk' k = d' := by
  obtain ⟨hk, -⟩ := List.getElem?_eq_some_iff.mp hs.index
  rw [diskInode, hs.ofId_eq hg hk]
  simp only [hs.record]
  exact ofBlock_toBlock d' _ (by omega)

theorem treeOf_self : efs.treeOf blk' k = tree d' blk' (blocksFor c'.length) := by
  rw [treeOf, hs.diskInode_self hg, hs.rep.size]

include h

theorem diskInode_other (hk' : k' < contents.length) (hne : k' ≠ k) :
    efs.diskInode blk' k' = efs.diskInode blk k' ∧
      (TypeOk (blk' (1 + b + k' / 4)) (k' % 4 * 128) ↔
        TypeOk (blk (1 + b + k' / 4)) (k' % 4 * 128)) := by
  have hcount := h.count
  exact h.diskInode_of_ne hg hk' hne hs.record fun hb => hs.records _ (by omega) (by omega) (by omega)

theorem file_other (hc : contents[k']? = some c) (hne : k' ≠ k) :
    efs.treeOf blk' k' = efs.treeOf blk k' ∧ FileRep (efs.diskInode blk' k') blk' c := by
  obtain ⟨hk', -⟩ := List.getElem?_eq_some_iff.mp hc
  refine h.file_frame hc (hs.diskInode_other h hg hk' hne).1 fun id hid => hs.files id ?_
  exact FsInv.mem_others.mpr ⟨k', hk', hne, hid⟩

theorem treeOf_other (hk' : k' < contents.length) (hne : k' ≠ k) :
    efs.treeOf blk' k' = efs.treeOf blk k' :=
  (hs.file_other h hg (List.getElem?_eq_getElem hk') hne).1

/-- A block of another file is none of file `k`. -/
theorem disjoint_self (hk' : k' < contents'.length) (hne : k' ≠ k) (hid : id ∈ efs.treeOf blk' k) :
    id ∉ efs.treeOf blk' k' := by
  have hlt := hs.lt_of_ne hk' hne
  rw [hs.treeOf_self hg] at hid
  rw [hs.treeOf_other h hg hlt hne]
  exact fun hid' => hs.fresh id hid (FsInv.mem_others.mpr ⟨k', hlt, hne, hid'⟩)

theorem mem_usedBlocks_iff : id ∈ efs.usedBlocks blk' contents'.length ↔
    id ∈ tree d' blk' (blocksFor c'.length) ++ FsInv.others efs blk contents.length k := by
  obtain ⟨hk, -⟩ := List.getElem?_eq_some_iff.mp hs.index
  rw [FsInv.mem_usedBlocks_iff hk, hs.treeOf_self hg, List.mem_append, List.mem_append,
    FsInv.mem_others, FsInv.mem_others]
  refine or_congr_right (exists_congr fun k' => ?_)
  constructor
  · rintro ⟨hk', hne, hid⟩
    have hlt := hs.lt_of_ne hk' hne
    exact ⟨hlt, hne, hs.treeOf_other h hg hlt hne ▸ hid⟩
  · rintro ⟨hk', hne, hid⟩
    exact ⟨Nat.lt_of_lt_of_le hk' hs.count_le, hne, (hs.treeOf_other h hg hk' hne).symm ▸ hid⟩

theorem inv : FsInv efs b d sb blk' contents' := by
  refine ⟨by rw [hs.superBlock]; exact h.superBlock, hs.inodeBits, hs.count, hs.count_lt, ?_, ?_, ?_,
    ?_, ?_, hs.data.congr fun id => hs.mem_usedBlocks_iff h hg⟩
  · intro k' c hc
    by_cases he : k' = k
    · rw [he, hs.index, Option.some.injEq] at hc
      rw [he, hs.diskInode_self hg, ← hc]
      exact hs.rep
    · exact (hs.file_other h hg (hs.old hc he) he).2
  · intro k' hk'
    by_cases he : k' = k
    · rw [he, hs.diskInode_self hg]
      exact hs.type_
    · have hlt := hs.lt_of_ne hk' he
      rw [(hs.diskInode_other h hg hlt he).1]
      exact h.types k' hlt
  · intro k' hk'
    rw [hs.ofId_eq hg hk']
    by_cases he : k' = k
    · simp only [he, hs.record]
      exact typeOk_toBlock d' _ (by omega)
    · have hlt := hs.lt_of_ne hk' he
      have hok := h.typeOk k' hlt
      rw [h.ofId_eq hg hlt] at hok
      exact (hs.diskInode_other h hg hlt he).2.mpr hok
  · intro k' hk'
    by_cases he : k' = k
    · rw [he, hs.treeOf_self hg]
      exact hs.nodup
    · have hlt := hs.lt_of_ne hk' he
      rw [hs.treeOf_other h hg hlt he]
      exact h.nodup k' hlt
  · intro k₁ hk₁ k₂ hk₂ hne id hid hid'
    by_cases h₁ : k₁ = k
    · subst h₁
      exact hs.disjoint_self h hg hk₂ (Ne.symm hne) hid hid'
    · by_cases h₂ : k₂ = k
      · subst h₂
        exact hs.disjoint_self h hg hk₁ h₁ hid' hid
      · have hlt₁ := hs.lt_of_ne hk₁ h₁
        have hlt₂ := hs.lt_of_ne hk₂ h₂
        rw [hs.treeOf_other h hg hlt₁ h₁] at hid
        rw [hs.treeOf_other h hg hlt₂ h₂] at hid'
        exact h.disjoint k₁ hlt₁ k₂ hlt₂ hne id hid hid'

/-- If the tree of file `k` is tidy, the others stay so. -/
theorem renewed (hself : efs.TidyFiles blk contents.length → Tidy d' blk' (blocksFor c'.length)) :
    Renewed efs b d sb blk contents blk' contents' := by
  refine ⟨hs.inv h hg, fun htidy k' hk' => ?_⟩
  by_cases he : k' = k
  · rw [he, hs.diskInode_self hg, hs.rep.size]
    exact hself htidy
  · have hlt := hs.lt_of_ne hk' he
    rw [(hs.diskInode_other h hg hlt he).1]
    apply (htidy k' hlt).congr
    intro s hin _
    apply hs.files
    exact FsInv.mem_others.mpr ⟨k', hlt, he, slotId_mem_tree hin⟩

end Stored

namespace FsInv

/-- File `k` gets a new record `d'` that represents `c'`, with blocks that belonged to it
before or to no file; the rest of the device is as before. -/
theorem stored (h : FsInv efs b d sb blk contents) (hg : Geometry efs b db d) {k : Nat}
    (hk : k < contents.length) {d' : DiskInode} {c' : List UInt8} {used' : List UInt32}
    (hrec : blk' (1 + b + k / 4) = d'.toBlock (blk (1 + b + k / 4)) (k % 4 * 128))
    (htype : d'.type_ = (efs.diskInode blk k).type_) (hrep : FileRep d' blk' c')
    (hused : tree d' blk' (blocksFor c'.length) = used') (hnd : used'.Nodup)
    (hfresh : ∀ id ∈ used', id ∉ others efs blk contents.length k)
    (hdata : DataArea efs d blk' (used' ++ others efs blk contents.length k))
    (hframe : ∀ x, x ≠ 1 + b + k / 4 → ¬InDataBitmap efs x →
      (∀ id ∈ efs.treeOf blk k, x ≠ id.toNat) → (∀ id ∈ used', x ≠ id.toNat) →
      blk' x = blk x) :
    Stored efs b d blk contents k d' c' blk' (contents.set k c') := by
  have hcount := h.count
  have hbm := hg.dataBitmap_start
  have hdb := hg.dataBitmap_blocks
  have hib := hg.inodeBitmap_start
  subst hused
  -- blocks before the data bitmap, other than the one of the record, stay
  have hlow : ∀ x, x < 1 + 1025 * b → x ≠ 1 + b + k / 4 → blk' x = blk x := by
    intro x hx hne
    apply hframe x hne (fun hin => by have := hin.1; omega)
    · intro id hid he
      have := h.mem_range hg hk hid
      omega
    · intro id hid he
      have := hdata.range id (List.mem_append_left _ hid)
      rw [hg.dataArea] at this
      omega
  have hfiles : ∀ id ∈ others efs blk contents.length k, blk' id.toNat = blk id.toNat := by
    intro id hother
    obtain ⟨k', hk', hne, hid⟩ := mem_others.mp hother
    have hin := h.mem_range hg hk' hid
    apply hframe _ (by omega) (fun hb => by have := hb.2; omega)
    · intro x hx he
      rw [toNat_inj.mp he] at hid
      exact h.disjoint k' hk' k hk hne x hid hx
    · intro x hx he
      rw [toNat_inj.mp he] at hother
      exact hfresh x hx hother
  have hbits : ∀ i < 4096 * b, efs.inodeBitmap.bitAt blk' i =
      decide (i < (contents.set k c').length) := by
    intro i hi
    rw [List.length_set, ← h.inodeBits i hi]
    exact Bitmap.bitAt_congr _ (hlow _ (by omega) (by omega))
  exact
    { index := List.getElem?_set_self hk
      old := fun hc hne => (List.getElem?_set_ne (Ne.symm hne)).symm.trans hc
      count_le := Nat.le_of_eq List.length_set.symm
      count := by rw [List.length_set]; exact hcount
      count_lt := by rw [List.length_set]; exact h.count_lt
      superBlock := hlow 0 (by omega) (by omega)
      inodeBits := hbits
      record := hrec
      records := fun x _ hx hne => hlow x hx hne
      files := hfiles
      type_ := htype.trans (h.types k hk)
      rep := hrep
      nodup := hnd
      fresh := hfresh
      data := hdata }

end FsInv

end RCore.EasyFs
