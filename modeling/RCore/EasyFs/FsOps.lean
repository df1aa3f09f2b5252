import RCore.EasyFs.FsInvariant

/-!
# File operations keep the invariant

Each operation of an inode runs to its end from every state that satisfies
`FsInv`, returns what the same operation on byte lists returns, and ends in a state
that satisfies `FsInv` for the new byte lists.  While an operation is under way the
record of its inode is in hand and not in its block; `Pending` is the invariant of
that time.
-/

namespace RCore.EasyFs

open RCore.Lib.LockedStore Function List UInt32 DiskInode Inode Slot
open Prog (withModify withRead check)
open Prog (run_bind_some run_check_true)

variable {f : DiskInode → FsProg (α × DiskInode)} {off : Nat} {buf : List UInt8}

/-! ## Operations on byte lists -/

/-- `content` with zero bytes appended up to length `n`. -/
def padTo (content : List UInt8) (n : Nat) : List UInt8 :=
  content ++ List.replicate (n - content.length) 0

/-- Store `buf` at offset `off`; a gap before it is filled with zeros. -/
def writeBytes (content : List UInt8) (off : Nat) (buf : List UInt8) : List UInt8 :=
  (List.range (max content.length (off + buf.length))).map fun i =>
    if off ≤ i ∧ i < off + buf.length then buf[i - off]?.getD 0 else content[i]?.getD 0

/-- The bytes from offset `off` on that fit into `buf`, and what is left of `buf`. -/
def readBytes (content : List UInt8) (off : Nat) (buf : List UInt8) : Nat × List UInt8 :=
  let n := min buf.length (content.length - off)
  (n, (content.drop off).take n ++ buf.drop n)

@[simp] theorem length_padTo (c : List UInt8) (n : Nat) :
    (padTo c n).length = max c.length n := by
  simp only [padTo, length_append, length_replicate]
  omega

theorem getD_padTo (content : List UInt8) (n i : Nat) :
    (padTo content n)[i]?.getD 0 = content[i]?.getD 0 := by
  unfold padTo
  by_cases hi : i < content.length
  · rw [getElem?_append_left hi]
  · rw [getElem?_append_right (by omega), getElem?_eq_none (l := content) (by omega),
      getElem?_replicate]
    split <;> rfl

@[simp] theorem length_writeBytes (c : List UInt8) (off : Nat) (buf : List UInt8) :
    (writeBytes c off buf).length = max c.length (off + buf.length) := by
  simp [writeBytes]

theorem length_padTo_eq_writeBytes (c : List UInt8) (off : Nat) (buf : List UInt8) :
    (padTo c (off + buf.length)).length = (writeBytes c off buf).length := by
  rw [length_padTo, length_writeBytes]

theorem getD_writeBytes (content : List UInt8) (off : Nat) (buf : List UInt8) (i : Nat) :
    (writeBytes content off buf)[i]?.getD 0 =
      if off ≤ i ∧ i < off + buf.length then buf[i - off]?.getD 0 else content[i]?.getD 0 := by
  by_cases hi : i < max content.length (off + buf.length)
  · simp [writeBytes, hi]
  · rw [getElem?_eq_none (by simpa using hi), if_neg (by omega), getElem?_eq_none (by omega)]

theorem padTo_eq_writeBytes (c : List UInt8) (off : Nat) : padTo c off = writeBytes c off [] := by
  apply ext_getElem
  · simp
  · intro i hi hi'
    have hpad := getD_padTo c off i
    have hwrite := getD_writeBytes c off [] i
    rw [if_neg (by simp), getElem?_eq_getElem hi', Option.getD_some] at hwrite
    rw [getElem?_eq_getElem hi, Option.getD_some] at hpad
    rw [hpad, hwrite]

/-! ## Access to a disk inode -/

section Access

variable {α : Type} {cap : Nat} {ro : Bool} {blk blk' : Nat → Block} {held : List Nat}
  {inode : Inode} {a : α}

theorem run_readDiskInode {f : DiskInode → FsProg α} (hoff : inode.blockOffset + 128 ≤ 512)
    (hid : inode.blockId ∉ held) (hcap : held.length < cap)
    (hbody : (f (ofBlock (blk inode.blockId) inode.blockOffset)).run cap ro
      ⟨blk, inode.blockId :: held⟩ = some (a, ⟨blk', inode.blockId :: held⟩)) :
    (inode.readDiskInode f).run cap ro ⟨blk, held⟩ = some (a, ⟨blk', held⟩) := by
  have hcheck : decide (inode.blockOffset + diskInodeSize ≤ blockSz) = true :=
    decide_eq_true hoff
  apply Prog.run_withRead hid hcap
  rw [hcheck, run_bind_some (run_check_true _)]
  exact hbody

theorem run_modifyDiskInode {f : DiskInode → FsProg (α × DiskInode)} {d' : DiskInode}
    (hoff : inode.blockOffset + 128 ≤ 512) (hid : inode.blockId ∉ held) (hcap : held.length < cap)
    (hbody : (f (ofBlock (blk inode.blockId) inode.blockOffset)).run cap ro
      ⟨blk, inode.blockId :: held⟩ = some ((a, d'), ⟨blk', inode.blockId :: held⟩))
    (hro : ro = true → d'.toBlock (blk inode.blockId) inode.blockOffset = blk' inode.blockId) :
    (inode.modifyDiskInode f).run cap ro ⟨blk, held⟩ = some (a,
      ⟨update blk' inode.blockId (d'.toBlock (blk inode.blockId) inode.blockOffset), held⟩) := by
  have hcheck : decide (inode.blockOffset + diskInodeSize ≤ blockSz) = true :=
    decide_eq_true hoff
  refine Prog.run_withModify hid hcap ?_ hro
  rw [hcheck, run_bind_some (run_check_true _), run_bind_some hbody]
  rfl

theorem fails_modifyDiskInode (hcap : held.length < cap)
    (hbody : (f (ofBlock (blk inode.blockId) inode.blockOffset)).Fails cap
      ⟨blk, inode.blockId :: held⟩) : (inode.modifyDiskInode f).Fails cap ⟨blk, held⟩ := by
  refine Prog.fails_withModify hcap ?_
  cases decide (inode.blockOffset + diskInodeSize ≤ blockSz) with
  | false => exact Prog.fails_bind_left Prog.fails_check_false _
  | true =>
    have hcheck : (Prog.check true : FsProg Unit).run cap true
        ⟨blk, inode.blockId :: held⟩ = some ((), ⟨blk, inode.blockId :: held⟩) :=
      run_check_true _
    exact Prog.fails_bind_right hcheck (Prog.fails_bind_left hbody _)

theorem panics_readDiskInode {f : DiskInode → FsProg α} (hid : inode.blockId ∉ held)
    (hcap : held.length < cap)
    (hbody : (f (ofBlock (blk inode.blockId) inode.blockOffset)).Panics cap
      ⟨blk, inode.blockId :: held⟩) : (inode.readDiskInode f).Panics cap ⟨blk, held⟩ := by
  refine Prog.panics_withRead hid hcap ?_
  exact Prog.panics_check_bind hbody

theorem panics_modifyDiskInode (hid : inode.blockId ∉ held) (hcap : held.length < cap)
    (hbody : (f (ofBlock (blk inode.blockId) inode.blockOffset)).Panics cap
      ⟨blk, inode.blockId :: held⟩) : (inode.modifyDiskInode f).Panics cap ⟨blk, held⟩ := by
  refine Prog.panics_withModify hid hcap ?_
  exact Prog.panics_check_bind (Prog.panics_bind_left hbody _)

end Access

/-! ### The record of a file -/

section File

variable {α : Type} {cap : Nat} {ro : Bool} {efs : EasyFileSystem} {b db d : Nat} {sb : SuperBlock}
  {blk blk' : Nat → Block} {contents : List (List UInt8)} {k : Nat} {a : α}
  (h : FsInv efs b d sb blk contents) (hg : Geometry efs b db d) (hk : k < contents.length)
  (hcap : 0 < cap)
include h hg hk hcap

theorem run_readFile {f : DiskInode → FsProg α}
    (hbody : (f (efs.diskInode blk k)).run cap ro ⟨blk, [1 + b + k / 4]⟩ =
      some (a, ⟨blk', [1 + b + k / 4]⟩)) :
    ((ofId efs (ofNat k)).readDiskInode f).run cap ro ⟨blk, []⟩ =
      some (a, ⟨blk', []⟩) := by
  rw [h.diskInode_eq hg hk] at hbody
  rw [h.ofId_eq hg hk]
  exact run_readDiskInode (by simp only; omega) not_mem_nil hcap hbody

theorem run_modifyFile {f : DiskInode → FsProg (α × DiskInode)} {d' : DiskInode}
    (hbody : (f (efs.diskInode blk k)).run cap false ⟨blk, [1 + b + k / 4]⟩ =
      some ((a, d'), ⟨blk', [1 + b + k / 4]⟩)) :
    ((ofId efs (ofNat k)).modifyDiskInode f).run cap false ⟨blk, []⟩ = some (a,
      ⟨update blk' (1 + b + k / 4) (d'.toBlock (blk (1 + b + k / 4)) (k % 4 * 128)),
        []⟩) := by
  rw [h.diskInode_eq hg hk] at hbody
  rw [h.ofId_eq hg hk]
  exact run_modifyDiskInode (by simp only; omega) not_mem_nil hcap hbody (by simp)

theorem fails_modifyFile (hbody : (f (efs.diskInode blk k)).Fails cap ⟨blk, [1 + b + k / 4]⟩) :
    ((ofId efs (ofNat k)).modifyDiskInode f).Fails cap ⟨blk, []⟩ := by
  rw [h.diskInode_eq hg hk] at hbody
  rw [h.ofId_eq hg hk]
  exact fails_modifyDiskInode hcap hbody

theorem panics_readFile {f : DiskInode → FsProg α}
    (hbody : (f (efs.diskInode blk k)).Panics cap ⟨blk, [1 + b + k / 4]⟩) :
    ((ofId efs (ofNat k)).readDiskInode f).Panics cap ⟨blk, []⟩ := by
  rw [h.diskInode_eq hg hk] at hbody
  rw [h.ofId_eq hg hk]
  exact panics_readDiskInode not_mem_nil hcap hbody

theorem panics_modifyFile (hbody : (f (efs.diskInode blk k)).Panics cap ⟨blk, [1 + b + k / 4]⟩) :
    ((ofId efs (ofNat k)).modifyDiskInode f).Panics cap ⟨blk, []⟩ := by
  rw [h.diskInode_eq hg hk] at hbody
  rw [h.ofId_eq hg hk]
  exact panics_modifyDiskInode not_mem_nil hcap hbody

theorem stops_readFile {f : DiskInode → FsProg α}
    (hbody : (f (efs.diskInode blk k)).Stops cap ⟨blk, [1 + b + k / 4]⟩) :
    ((ofId efs (ofNat k)).readDiskInode f).Stops cap ⟨blk, []⟩ := by
  rcases hbody with ⟨a, hrun⟩ | hpanic
  · exact Or.inl ⟨a, run_readFile h hg hk hcap hrun⟩
  · exact Or.inr (panics_readFile h hg hk hcap hpanic)

theorem run_putBack {g : DiskInode → FsProg α}
    (hbody : (g (efs.diskInode blk k)).run cap ro ⟨blk, [1 + b + k / 4]⟩ =
      some (a, ⟨blk, [1 + b + k / 4]⟩)) :
    ((ofId efs (ofNat k)).modifyDiskInode fun diskInode => do
      let a ← g diskInode
      pure (a, diskInode)).run cap ro ⟨blk, []⟩ = some (a, ⟨blk, []⟩) := by
  have htype := h.typeOk k hk
  rw [h.ofId_eq hg hk] at htype ⊢
  rw [h.diskInode_eq hg hk] at hbody
  have hback := toBlock_ofBlock (blk (1 + b + k / 4)) htype
  have hkeep : update blk (1 + b + k / 4)
      ((ofBlock (blk (1 + b + k / 4)) (k % 4 * 128)).toBlock (blk (1 + b + k / 4))
        (k % 4 * 128)) = blk := by
    rw [hback, update_eq_self]
  refine (run_modifyDiskInode (by simp only; omega) not_mem_nil hcap ?_ fun _ => hback).trans
    (by rw [hkeep])
  exact (run_bind_some hbody).trans rfl

theorem stops_putBack {g : DiskInode → FsProg α}
    (hbody : (g (efs.diskInode blk k)).Stops cap ⟨blk, [1 + b + k / 4]⟩) :
    ((ofId efs (ofNat k)).modifyDiskInode fun diskInode => do
      let a ← g diskInode
      pure (a, diskInode)).Stops cap ⟨blk, []⟩ := by
  rcases hbody with ⟨a, hrun⟩ | hpanic
  · exact Or.inl ⟨a, run_putBack h hg hk hcap hrun⟩
  · exact Or.inr (panics_modifyFile h hg hk hcap (Prog.panics_bind_left hpanic _))

end File

/-! ## A file whose record is in hand -/

/-- The record `d'` in hand and the blocks `blk'` hold new contents `c` of file `k`; all the
rest is as in `blk`. -/
structure Pending (efs : EasyFileSystem) (d : Nat) (blk : Nat → Block) (count k : Nat)
    (c : List UInt8) (d' : DiskInode) (blk' : Nat → Block) : Prop where
  rep : FileRep d' blk' c
  type_ : d'.type_ = (efs.diskInode blk k).type_
  nodup : (tree d' blk' (blocksFor c.length)).Nodup
  fresh : ∀ id ∈ tree d' blk' (blocksFor c.length), id ∉ FsInv.others efs blk count k
  data : DataArea efs d blk' (tree d' blk' (blocksFor c.length) ++ FsInv.others efs blk count k)
  frame : ∀ x, ¬InDataBitmap efs x → (∀ id ∈ efs.treeOf blk k, x ≠ id.toNat) →
    (∀ id ∈ tree d' blk' (blocksFor c.length), x ≠ id.toNat) → blk' x = blk x

namespace Pending

variable {efs : EasyFileSystem} {b db d : Nat} {sb : SuperBlock} {blk blk' : Nat → Block}
  {contents : List (List UInt8)} {k : Nat} {c : List UInt8} {d' : DiskInode}

theorem start (h : FsInv efs b d sb blk contents) (hk : contents[k]? = some c) :
    Pending efs d blk contents.length k c (efs.diskInode blk k) blk := by
  obtain ⟨hlt, -⟩ := List.getElem?_eq_some_iff.mp hk
  have htree := h.treeOf_eq hk
  refine ⟨h.rep hk, rfl, htree ▸ h.nodup k hlt, ?_, ?_, fun _ _ _ _ => rfl⟩
  · rw [← htree]
    exact fun id hid => h.not_mem_others hlt hid
  · rw [← htree]
    exact h.data.congr fun id => (FsInv.mem_usedBlocks_iff hlt).symm

theorem mem_range (h : Pending efs d blk contents.length k c d' blk') (hg : Geometry efs b db d)
    {id : UInt32} (hid : id ∈ tree d' blk' (blocksFor c.length)) :
    1 + 1025 * b + db ≤ id.toNat ∧ id.toNat < 1 + 1025 * b + db + d := by
  have hrange := h.data.range id (mem_append_left _ hid)
  rw [hg.dataArea] at hrange
  exact hrange

theorem dataBitmap_not_held (hg : Geometry efs b db d) (hk : k < 4096 * b) :
    ∀ x, InDataBitmap efs x → x ∉ [1 + b + k / 4] := by
  have hbm := hg.dataBitmap_start
  intro x hin hmem
  have := hin.1
  rw [mem_singleton] at hmem
  omega

theorem not_held (h : Pending efs d blk contents.length k c d' blk') (hg : Geometry efs b db d)
    (hk : k < 4096 * b) :
    ∀ id ∈ tree d' blk' (blocksFor c.length), id.toNat ∉ [1 + b + k / 4] := by
  intro id hid hmem
  have hrange := h.mem_range hg hid
  rw [mem_singleton] at hmem
  omega

section

variable (hp : Pending efs d blk contents.length k c d' blk') (h : FsInv efs b d sb blk contents)
  (hg : Geometry efs b db d) (hk : k < contents.length)
include hp h hg hk

/-- Storing the record ends the operation. -/
theorem stored :
    Stored efs b d blk contents k d' c
      (update blk' (1 + b + k / 4) (d'.toBlock (blk (1 + b + k / 4)) (k % 4 * 128)))
      (contents.set k c) := by
  have hcount := h.count
  have hbm := hg.dataBitmap_start
  have hdb := hg.dataBitmap_blocks
  let blk'' := update blk' (1 + b + k / 4) (d'.toBlock (blk (1 + b + k / 4)) (k % 4 * 128))
  -- the record's block is none of the blocks of the file
  have hsame : ∀ id ∈ tree d' blk' (blocksFor c.length), blk'' id.toNat = blk' id.toNat := by
    intro id hid
    have hrange := hp.mem_range hg hid
    exact update_of_ne (by omega) _ _
  have htree : tree d' blk'' (blocksFor c.length) = tree d' blk' (blocksFor c.length) :=
    tree_congr (fun _ _ _ => rfl) hsame
  refine h.stored hg hk (update_self _ _ _) hp.type_ ⟨hp.rep.size, hp.rep.bound, ?_⟩
    htree hp.nodup hp.fresh ?_ ?_
  · intro i hi
    have huse : InUse (blocksFor c.length) (.data (i / 512)) := by
      change i / 512 < _
      omega
    rw [← hp.rep.bytes i hi]
    exact fileByte_congr
      (slotId_congr (fun _ _ _ => rfl) (fun s hs _ => hsame _ (slotId_mem_tree hs)) huse)
      (hsame _ (slotId_mem_tree huse))
  · apply hp.data.frame hg
    · intro id hin
      have := hin.1
      exact update_of_ne (by omega) _ _
    · intro j _ _
      have := hg.dataArea
      exact update_of_ne (by omega) _ _
  · intro x hx hbitmap hold hnew
    exact (update_of_ne hx _ _).trans (hp.frame x hbitmap hold hnew)

theorem renewed
    (hself : Tidy (efs.diskInode blk k) blk (blocksFor (efs.diskInode blk k).size.toNat) →
      Tidy d' blk' (blocksFor c.length)) :
    Renewed efs b d sb blk contents
      (update blk' (1 + b + k / 4) (d'.toBlock (blk (1 + b + k / 4)) (k % 4 * 128)))
      (contents.set k c) := by
  have hcount := h.count
  refine (hp.stored h hg hk).renewed h hg fun htidy => (hself (htidy k hk)).congr fun s hs _ => ?_
  have hrange := hp.mem_range hg (slotId_mem_tree hs)
  exact update_of_ne (by omega) _ _

end

/-! ### Growing -/

/-- The file keeps the blocks that it had; the first free blocks have been put behind them, and
a tidy tree has stayed tidy. -/
structure Extended (efs : EasyFileSystem) (d : Nat) (blk : Nat → Block) (count k : Nat)
    (c : List UInt8) (d' : DiskInode) (blk' : Nat → Block) : Prop extends
    Pending efs d blk count k c d' blk' where
  grown : ∃ w, Takes efs (efs.usedBlocks blk count) w ∧
    tree d' blk' (blocksFor c.length) = efs.treeOf blk k ++ w
  tidy : Tidy (efs.diskInode blk k) blk (blocksFor (efs.diskInode blk k).size.toNat) →
    Tidy d' blk' (blocksFor c.length)

theorem Extended.start (h : FsInv efs b d sb blk contents) (hk : contents[k]? = some c) :
    Extended efs d blk contents.length k c (efs.diskInode blk k) blk := by
  refine ⟨Pending.start h hk, ⟨[], trivial, ?_⟩, fun htidy => ?_⟩
  · rw [← h.treeOf_eq hk, append_nil]
  · rw [(h.rep hk).size] at htidy
    exact htidy

/-- The blocks `w` have been allocated beside the blocks in use, `blk₁` is what that leaves. -/
structure Allocated (efs : EasyFileSystem) (d : Nat) (blk : Nat → Block) (count : Nat)
    (w : List UInt32) (blk₁ : Nat → Block) : Prop where
  fresh : ∀ id ∈ w, id ∉ efs.usedBlocks blk count ∧ blk₁ id.toNat = Block.zero
  nodup : w.Nodup
  data : DataArea efs d blk₁ (efs.usedBlocks blk count ++ w)
  frame : ∀ x, ¬InDataBitmap efs x → blk₁ x = blk x

namespace Allocated

variable {w : List UInt32} {blk₁ : Nat → Block}
  (ha : Allocated efs d blk contents.length w blk₁) (h : FsInv efs b d sb blk contents)
  (hg : Geometry efs b db d) (hk : contents[k]? = some c)

include ha hg in
theorem range (hk : k < contents.length) :
    ∀ id ∈ efs.treeOf blk k ++ w, 1 + 1025 * b + db ≤ id.toNat := by
  intro id hid
  have hmem : id ∈ efs.usedBlocks blk contents.length ++ w := by
    rcases mem_append.mp hid with hid | hid
    · exact mem_append_left _ (mem_usedBlocks.mpr ⟨k, hk, hid⟩)
    · exact mem_append_right _ hid
  have hrange := (ha.data.range id hmem).1
  rw [hg.dataArea] at hrange
  exact hrange

include ha h in
theorem nodup_append (hk : k < contents.length) : (efs.treeOf blk k ++ w).Nodup := by
  rw [List.nodup_append]
  refine ⟨h.nodup k hk, ha.nodup, ?_⟩
  rintro id hid _ hid' rfl
  exact (ha.fresh id hid').1 (mem_usedBlocks.mpr ⟨k, hk, hid⟩)

include ha h hg hk

theorem keep : ∀ id ∈ tree (efs.diskInode blk k) blk (blocksFor c.length),
    blk₁ id.toNat = blk id.toNat := by
  obtain ⟨hlt, -⟩ := List.getElem?_eq_some_iff.mp hk
  have hbm := hg.dataBitmap_start
  have hdb := hg.dataBitmap_blocks
  rw [← h.treeOf_eq hk]
  intro id hid
  refine ha.frame _ fun hin => ?_
  have hge := (h.mem_range hg hlt hid).1
  have hend := hin.2
  omega

theorem tree_eq : tree (efs.diskInode blk k) blk₁ (blocksFor c.length) = efs.treeOf blk k := by
  rw [h.treeOf_eq hk]
  exact tree_congr (fun _ _ _ => rfl) (ha.keep h hg hk)

end Allocated

/-- `increase_size` links the new blocks `w` into the tree, and writes index blocks only. -/
structure Linked (efs : EasyFileSystem) (blk : Nat → Block) (k : Nat) (w : List UInt32)
    (blk₁ : Nat → Block) (newSize : Nat) (d' : DiskInode) (blk' : Nat → Block) : Prop where
  size : d'.size.toNat = newSize
  type_ : d'.type_ = (efs.diskInode blk k).type_
  tree_eq : tree d' blk' (blocksFor newSize) = efs.treeOf blk k ++ w
  frame : ∀ x : Nat, (∀ s : Slot, s.InUse (blocksFor newSize) → s.isIndex = true →
    (slotId d' blk' s).toNat ≠ x) → blk' x = blk₁ x

section Grown

variable {w : List UInt32} {blk₁ : Nat → Block} {newSize : Nat}
  (h : FsInv efs b d sb blk contents) (hg : Geometry efs b db d) (hk : contents[k]? = some c)
  (hge : c.length ≤ newSize) (ha : Allocated efs d blk contents.length w blk₁)
  (hl : Linked efs blk k w blk₁ newSize d' blk')

include h hk ha hl in
theorem nodup_linked : (tree d' blk' (blocksFor newSize)).Nodup := by
  obtain ⟨hlt, -⟩ := List.getElem?_eq_some_iff.mp hk
  rw [hl.tree_eq]
  exact ha.nodup_append h hlt

include h hg hk hge ha hl in
theorem grown_byte {i : Nat} (hi : i < 512 * blocksFor newSize) :
    fileByte d' blk' i = (padTo c newSize)[i]?.getD 0 := by
  have hnd := nodup_linked h hk ha hl
  have htree := hl.tree_eq
  rw [h.treeOf_eq hk] at htree
  have hj : i / 512 < blocksFor newSize := by omega
  rw [getD_padTo, fileByte, data_of_index_frame hnd hl.frame hj]
  by_cases hold : i / 512 < blocksFor c.length
  · have hslot := slotId_of_tree_append (blocksFor_mono hge) htree
      (show InUse _ (.data (i / 512)) from hold)
    rw [hslot, ha.keep h hg hk _ (slotId_mem_tree (s := .data (i / 512)) hold)]
    exact (h.rep hk).bytes i (by omega)
  · have hmem := slotId_mem_of_tree_append (blocksFor_mono hge) htree hnd
      (show InUse _ (.data (i / 512)) from hj) hold
    have hc := le_blocksFor c.length
    rw [(ha.fresh _ hmem).2, Block.byte_zero, getElem?_eq_none (by omega)]
    rfl

include hg hk ha hl in
theorem grown_data : DataArea efs d blk'
    (tree d' blk' (blocksFor newSize) ++ FsInv.others efs blk contents.length k) := by
  obtain ⟨hlt, -⟩ := List.getElem?_eq_some_iff.mp hk
  have hbm := hg.dataBitmap_start
  have hdb := hg.dataBitmap_blocks
  have hdata : DataArea efs d blk₁
      (tree d' blk' (blocksFor newSize) ++ FsInv.others efs blk contents.length k) := by
    refine ha.data.congr fun id => ?_
    rw [hl.tree_eq]
    simp only [mem_append, FsInv.mem_usedBlocks_iff hlt]
    tauto
  apply hdata.frame hg
  · intro x hin
    apply hl.frame
    intro s hs _ he
    have hmem : slotId d' blk' s ∈ tree d' blk' (blocksFor newSize) := slotId_mem_tree hs
    rw [hl.tree_eq] at hmem
    have hge := ha.range hg hlt _ hmem
    have hend := hin.2
    omega
  · intro j _ hno
    apply hl.frame
    intro s hs _
    exact hno _ (mem_append_left _ (slotId_mem_tree hs))

include h hg hk hge ha hl in
theorem grown (hbound : newSize ≤ 8468480) :
    Pending efs d blk contents.length k (padTo c newSize) d' blk' := by
  obtain ⟨hlt, -⟩ := List.getElem?_eq_some_iff.mp hk
  have hlen : (padTo c newSize).length = newSize := by
    rw [length_padTo]
    omega
  refine ⟨⟨by rw [hlen, hl.size], by rw [hlen]; exact hbound, ?_⟩, hl.type_, ?_, ?_, ?_, ?_⟩
  · intro i hi
    rw [hlen] at hi
    exact grown_byte h hg hk hge ha hl hi
  · rw [hlen]
    exact nodup_linked h hk ha hl
  · rw [hlen, hl.tree_eq]
    intro id hid hother
    rcases mem_append.mp hid with hid | hid
    · exact h.not_mem_others hlt hid hother
    · obtain ⟨k', hk', -, hin⟩ := FsInv.mem_others.mp hother
      exact (ha.fresh id hid).1 (mem_usedBlocks.mpr ⟨k', hk', hin⟩)
  · rw [hlen]
    exact grown_data hg hk ha hl
  · intro x hbitmap _ hnew
    rw [hlen] at hnew
    rw [← ha.frame x hbitmap]
    apply hl.frame
    intro s hs _ he
    exact hnew _ (slotId_mem_tree hs) he.symm

end Grown

theorem extended {w : List UInt32} {blk₁ : Nat → Block} {newSize : Nat} {size : UInt32}
    (h : FsInv efs b d sb blk contents) (hg : Geometry efs b db d) (hk : contents[k]? = some c)
    (hge : c.length ≤ newSize) (ha : Allocated efs d blk contents.length w blk₁)
    (htakes : Takes efs (efs.usedBlocks blk contents.length) w) (hsize : size.toNat = newSize)
    (hgrow : GrowingFrom { efs.diskInode blk k with size := size } blk₁
      (tree (efs.diskInode blk k) blk₁ (blocksFor c.length) ++ w) d' blk'
      (slots (blocksFor newSize)) []) (hbound : newSize ≤ 8468480) :
    Extended efs d blk contents.length k (padTo c newSize) d' blk' := by
  obtain ⟨hlt, -⟩ := List.getElem?_eq_some_iff.mp hk
  have hlen : (padTo c newSize).length = newSize := by
    rw [length_padTo]
    omega
  have htree₁ := ha.tree_eq h hg hk
  have htree := hgrow.tree_eq
  rw [htree₁] at htree
  have hsize' : d'.size = size := hgrow.size
  have hl : Linked efs blk k w blk₁ newSize d' blk' :=
    ⟨by rw [hsize', hsize], hgrow.type_, htree,
      fun x hx => hgrow.frame x fun s hs => hx s (mem_slots.mp hs)⟩
  refine ⟨grown h hg hk hge ha hl hbound, ⟨w, htakes, by rw [hlen]; exact htree⟩, ?_⟩
  intro htidy
  rw [(h.rep hk).size] at htidy
  -- the blocks of the file are as they were before the allocation
  have htidy₁ : Tidy (efs.diskInode blk k) blk₁ (blocksFor c.length) :=
    htidy.congr fun s hs _ => ha.keep h hg hk _ (slotId_mem_tree hs)
  rw [hlen]
  exact htidy₁.grow (blocksFor_mono hge) (htree₁ ▸ ha.nodup_append h hlt)
    (fun id hid => (ha.fresh id hid).2) hgrow

theorem run_allocGrowth {cap : Nat} (hcap : 1 < cap) (h : FsInv efs b d sb blk contents)
    (hg : Geometry efs b db d) (hk : contents[k]? = some c) {newSize : Nat}
    (hge : c.length ≤ newSize) (hspace : blocksUsed (contents.set k (padTo c newSize)) ≤ d) :
    ∃ w blk₁, (efs.allocDatas
          (blockCount (blocksFor newSize) - blockCount (blocksFor c.length)) []).run cap false
        ⟨blk, [1 + b + k / 4]⟩ = some ([] ++ w, ⟨blk₁, [1 + b + k / 4]⟩) ∧
      w.length = blockCount (blocksFor newSize) - blockCount (blocksFor c.length) ∧
      Allocated efs d blk contents.length w blk₁ ∧
      Takes efs (efs.usedBlocks blk contents.length) w := by
  obtain ⟨hlt, -⟩ := List.getElem?_eq_some_iff.mp hk
  have hcount := h.count
  have hbm := hg.dataBitmap_start
  have hlen : (padTo c newSize).length = newSize := by
    rw [length_padTo]
    omega
  have hmono := blockCount_mono (blocksFor_mono hge)
  have hused := h.length_usedBlocks
  have hset := blocksUsed_set hk (padTo c newSize)
  rw [hlen] at hset
  obtain ⟨w, blk₁, hrun, hwlen, htakes, hzero, hdata, hoff⟩ := run_allocDatas hg
    (blockCount (blocksFor newSize) - blockCount (blocksFor c.length)) (v := []) h.data
    (by omega) (dataBitmap_not_held hg (by omega)) (show [1 + b + k / 4].length < cap from hcap)
  exact ⟨w, blk₁, hrun, hwlen,
    ⟨fun id hid => ⟨htakes.not_mem hid, hzero id hid⟩, htakes.nodup, hdata, hoff⟩, htakes⟩

/-- `Inode::increase_size` appends the blocks that are missing, and pads the file with zeros up
to the new size. -/
theorem run_increaseSize_extended {cap : Nat} (hcap : 2 < cap) (h : FsInv efs b d sb blk contents)
    (hg : Geometry efs b db d) (hk : contents[k]? = some c) {newSize : Nat}
    (hbound : newSize ≤ 8468480)
    (hspace : blocksUsed (contents.set k (padTo c newSize)) ≤ d) :
    ∃ d' blk', (Inode.increaseSize efs (ofNat newSize) (efs.diskInode blk k)).run cap false
        ⟨blk, [1 + b + k / 4]⟩ = some (d', ⟨blk', [1 + b + k / 4]⟩) ∧
      Extended efs d blk contents.length k (padTo c newSize) d' blk' := by
  obtain ⟨hlt, -⟩ := List.getElem?_eq_some_iff.mp hk
  have hrep := h.rep hk
  have hcount := h.count
  have hnew : (ofNat newSize).toNat = newSize := by
    rw [toNat_ofNat']
    exact Nat.mod_eq_of_lt (by omega)
  rw [Inode.increaseSize]
  by_cases hless : newSize < c.length
  · have hpad : padTo c newSize = c := by
      have hzero : newSize - c.length = 0 := by omega
      rw [padTo, hzero, replicate_zero, append_nil]
    rw [if_pos (by rw [lt_iff_toNat_lt, hnew, hrep.size]; exact hless), hpad]
    exact ⟨_, blk, rfl, Extended.start h hk⟩
  · have hge : c.length ≤ newSize := by omega
    have hnot : ¬ofNat newSize < (efs.diskInode blk k).size := by
      rw [lt_iff_toNat_lt, hnew, hrep.size]
      exact hless
    have hcheck : decide (ofNat newSize ≥ (efs.diskInode blk k).size) = true := by
      rw [decide_eq_true_eq, ge_iff_le, le_iff_toNat_le, hnew, hrep.size]
      exact hge
    -- the number of blocks to allocate
    have hbound' : (ofNat newSize).toNat ≤ 8468480 := by rw [hnew]; exact hbound
    have hsize : (efs.diskInode blk k).size.toNat ≤ 8468480 := by
      rw [hrep.size]
      exact hrep.bound
    have hneeded : (totalBlocks (ofNat newSize) - totalBlocks (efs.diskInode blk k).size).toNat =
        blockCount (blocksFor newSize) - blockCount (blocksFor c.length) := by
      rw [toNat_totalBlocks_sub hbound' (by rw [hrep.size, hnew]; exact hge), hnew, hrep.size]
    obtain ⟨w, blk₁, hrun₁, hwlen, ha, htakes⟩ :=
      run_allocGrowth (Nat.lt_of_succ_lt hcap) h hg hk hge hspace
    have htree₁ := ha.tree_eq h hg hk
    have hbm := hg.dataBitmap_start
    have hheld : ∀ id ∈ efs.treeOf blk k ++ w, id.toNat ∉ [1 + b + k / 4] := by
      intro id hid hmem
      have hge := ha.range hg hlt id hid
      rw [mem_singleton] at hmem
      omega
    have hcur : (efs.diskInode blk k).dataBlocks.toNat = blocksFor c.length := by
      rw [dataBlocks, toNat_dataBlocksOf hsize, hrep.size]
    have htotal : (dataBlocksOf (ofNat newSize)).toNat = blocksFor newSize := by
      rw [toNat_dataBlocksOf hbound', hnew]
    obtain ⟨d', blk', hrun₂, hgrow⟩ :=
      run_increaseSize_from (efs.diskInode blk k) hcur htotal (blocksFor_mono hge)
        (blocksFor_le hbound) (htree₁ ▸ ha.nodup_append h hlt) hwlen (htree₁ ▸ hheld)
        (show [1 + b + k / 4].length + 1 < cap from hcap)
    have hextended := extended h hg hk hge ha htakes hnew hgrow hbound
    refine ⟨d', blk', ?_, hextended⟩
    rw [if_neg hnot, blocksNumNeeded, hcheck]
    refine (run_bind_some (run_bind_some (run_check_true _))).trans ?_
    rw [hneeded, run_bind_some hrun₁]
    exact hrun₂

/-! ### Writing -/

/-- `DiskInode::write_at` on a file that has been padded far enough writes data blocks only. -/
theorem run_writeAt_wrote {cap : Nat} (hcap : 1 < cap) (hg : Geometry efs b db d)
    (hk : k < 4096 * b) (hpos : 0 < buf.length)
    (hp : Pending efs d blk contents.length k (padTo c (off + buf.length)) d' blk') :
    ∃ blk'', (d'.writeAt off buf).run cap false ⟨blk', [1 + b + k / 4]⟩ =
        some (buf.length, ⟨blk'', [1 + b + k / 4]⟩) ∧
      Pending efs d blk contents.length k (writeBytes c off buf) d' blk'' ∧
      Wrote d' (blocksFor d'.size.toNat) off (off + buf.length) (fun i => buf[i - off]?.getD 0)
        blk' blk'' := by
  have hlen := length_padTo_eq_writeBytes c off buf
  have hsize := hp.rep.size
  have hbound := hp.rep.bound
  have hheld := hp.not_held hg hk
  have hnd := hp.nodup
  have hrep := hp.rep.bytes
  have hfresh := hp.fresh
  have hdata := hp.data
  have hframe := hp.frame
  rw [hlen] at hsize hbound hheld hnd hrep hfresh hdata hframe
  have hfit : off + buf.length ≤ d'.size.toNat := by
    rw [hsize, length_writeBytes]
    omega
  rw [← hsize] at hheld hnd hrep hfresh hdata hframe
  obtain ⟨blk'', hrun, hwrote⟩ := EasyFs.run_writeAt (by omega) hnd hheld
    (show [1 + b + k / 4].length < cap from hcap) hpos hfit
  have htree := hwrote.tree_eq hnd
  -- only data blocks of the file are written
  have hkeep : ∀ x, (∀ id ∈ tree d' blk' (blocksFor d'.size.toNat), x ≠ id.toNat) →
      blk'' x = blk' x := by
    intro x hx
    apply hwrote.frame
    intro j hj he
    exact hx _ (slotId_mem_tree (s := .data j) hj) he.symm
  refine ⟨blk'', hrun, ⟨⟨hsize, hbound, ?_⟩, hp.type_, ?_, ?_, ?_, ?_⟩, hwrote⟩
  · intro i hi
    rw [← hsize] at hi
    rw [hwrote.bytes i hi, getD_writeBytes, hrep i hi, getD_padTo]
  · rw [← hsize, htree]
    exact hnd
  · rw [← hsize, htree]
    exact hfresh
  · rw [← hsize, htree]
    have hbm := hg.dataBitmap_start
    have hdb := hg.dataBitmap_blocks
    apply hdata.frame hg
    · intro x hin
      refine hkeep x fun id hid he => ?_
      have hge := (hdata.range id (mem_append_left _ hid)).1
      rw [hg.dataArea] at hge
      have := hin.2
      omega
    · intro j _ hno
      exact hkeep _ fun id hid he => hno id (mem_append_left _ hid) he.symm
  · rw [← hsize, htree]
    intro x hbitmap hold hnew
    rw [hkeep x hnew]
    exact hframe x hbitmap hold hnew

/-- Data blocks are no part of what `Extended` says of the tree. -/
theorem Extended.run_writeAt {cap : Nat} (hcap : 1 < cap) (hg : Geometry efs b db d)
    (hk : k < 4096 * b) (hpos : 0 < buf.length)
    (hp : Extended efs d blk contents.length k (padTo c (off + buf.length)) d' blk') :
    ∃ blk'', (d'.writeAt off buf).run cap false ⟨blk', [1 + b + k / 4]⟩ =
        some (buf.length, ⟨blk'', [1 + b + k / 4]⟩) ∧
      Extended efs d blk contents.length k (writeBytes c off buf) d' blk'' := by
  obtain ⟨blk'', hrun, hp', hwrote⟩ := hp.toPending.run_writeAt_wrote hcap hg hk hpos
  have hlen := length_padTo_eq_writeBytes c off buf
  have hsize := hp.rep.size
  have hnd := hp.nodup
  have hgrown := hp.grown
  have htidy := hp.tidy
  rw [← hsize] at hnd hgrown htidy
  rw [hlen] at hsize
  refine ⟨blk'', hrun, hp', ?_, fun hold => ?_⟩
  · rw [← hsize, hwrote.tree_eq hnd]
    exact hgrown
  · rw [← hsize]
    apply (htidy hold).congr
    intro s hs hindex
    apply hwrote.frame
    intro j hj he
    have hsame := slotId_inj hnd (show InUse _ (.data j) from hj) hs (UInt32.toNat_inj.mp he)
    rw [← hsame] at hindex
    exact Bool.false_ne_true hindex

end Pending

/-! ## The operations -/

section Operations

variable {efs : EasyFileSystem} {b db d : Nat} {sb : SuperBlock} {blk : Nat → Block}
  {contents : List (List UInt8)} {k : Nat} {c : List UInt8} {cap : Nat}

theorem blocksUsed_set_congr {c₁ c₂ : List UInt8} (hlen : c₁.length = c₂.length)
    (hk : contents[k]? = some c) :
    blocksUsed (contents.set k c₁) = blocksUsed (contents.set k c₂) := by
  have h₁ := blocksUsed_set hk c₁
  have h₂ := blocksUsed_set hk c₂
  rw [hlen] at h₁
  omega

section

variable (hcap : 2 < cap) (h : FsInv efs b d sb blk contents) (hg : Geometry efs b db d)
  (hk : contents[k]? = some c)
include hcap h hg hk

/-- `write_at`, up to the final `block_cache_sync_all`. -/
theorem run_write_extended {off : Nat} {buf : List UInt8} (hpos : 0 < buf.length)
    (hbound : (writeBytes c off buf).length ≤ 8468480)
    (hspace : blocksUsed (contents.set k (writeBytes c off buf)) ≤ d) :
    ∃ d' blk', ((ofId efs (ofNat k)).modifyDiskInode
        (writeBody efs off buf)).run cap false ⟨blk, []⟩ =
        some (buf.length, ⟨update blk' (1 + b + k / 4)
          (d'.toBlock (blk (1 + b + k / 4)) (k % 4 * 128)), []⟩) ∧
      Pending.Extended efs d blk contents.length k (writeBytes c off buf) d' blk' := by
  obtain ⟨hlt, -⟩ := List.getElem?_eq_some_iff.mp hk
  have hcount := h.count
  have hlen := length_padTo_eq_writeBytes c off buf
  have hsum : off + buf.length ≤ 8468480 := by
    rw [length_writeBytes] at hbound
    omega
  have hadd : usizeAdd off buf.length = off + buf.length :=
    Nat.mod_eq_of_lt (by omega)
  obtain ⟨d₁, blk₁, hrun₁, hp₁⟩ := Pending.run_increaseSize_extended hcap h hg hk hsum
    (blocksUsed_set_congr hlen hk ▸ hspace)
  obtain ⟨blk₂, hrun₂, hp₂⟩ := hp₁.run_writeAt (show 1 < cap by omega) hg (by omega) hpos
  refine ⟨d₁, blk₂, run_modifyFile h hg hlt (by omega) ?_, hp₂⟩
  rw [writeBody, hadd, run_bind_some hrun₁, run_bind_some hrun₂]
  rfl

theorem run_write_renewed (hpos : 0 < buf.length)
    (hbound : (writeBytes c off buf).length ≤ 8468480)
    (hspace : blocksUsed (contents.set k (writeBytes c off buf)) ≤ d) :
    ∃ blk', ((ofId efs (ofNat k)).modifyDiskInode
        (writeBody efs off buf)).run cap false ⟨blk, []⟩ =
        some (buf.length, ⟨blk', []⟩) ∧
      Renewed efs b d sb blk contents blk' (contents.set k (writeBytes c off buf)) := by
  obtain ⟨hlt, -⟩ := List.getElem?_eq_some_iff.mp hk
  obtain ⟨d', blk', hrun, hp⟩ := run_write_extended hcap h hg hk hpos hbound hspace
  exact ⟨_, hrun, hp.renewed h hg hlt hp.tidy⟩

/-- `write_at` of an empty buffer pads the file, unless it stops at the block it looks up. -/
theorem run_write_nil {off : Nat} (hbound : (writeBytes c off []).length ≤ 8468480)
    (hspace : blocksUsed (contents.set k (writeBytes c off [])) ≤ d) :
    (∃ n blk', ((ofId efs (ofNat k)).modifyDiskInode
        (writeBody efs off [])).run cap false ⟨blk, []⟩ = some (n, ⟨blk', []⟩) ∧
      Renewed efs b d sb blk contents blk' (contents.set k (writeBytes c off []))) ∨
    ((ofId efs (ofNat k)).modifyDiskInode (writeBody efs off [])).Fails cap
      ⟨blk, []⟩ := by
  obtain ⟨hlt, -⟩ := List.getElem?_eq_some_iff.mp hk
  have hcount := h.count
  have hoff : off ≤ 8468480 := by
    rw [length_writeBytes] at hbound
    exact (Nat.le_max_right _ _).trans hbound
  have hadd : usizeAdd off ([] : List UInt8).length = off :=
    Nat.mod_eq_of_lt (by simp only [length_nil]; omega)
  rw [← padTo_eq_writeBytes] at hspace ⊢
  obtain ⟨d₁, blk₁, hrun₁, hp₁⟩ := Pending.run_increaseSize_extended hcap h hg hk hoff hspace
  have hfinish := hp₁.renewed h hg hlt hp₁.tidy
  have hheld : [1 + b + k / 4].length < cap := by
    rw [length_singleton]
    omega
  have hsettles : (d₁.writeAt off []).Settles cap ⟨blk₁, [1 + b + k / 4]⟩ :=
    settles_writeAt_nil hheld off
  rcases hsettles with ⟨n, hrun₂⟩ | hfail
  · refine Or.inl ⟨n, _, run_modifyFile h hg hlt (by omega) ?_, hfinish⟩
    rw [writeBody, hadd, run_bind_some hrun₁, run_bind_some (Prog.run_of_readOnly hrun₂)]
    rfl
  · refine Or.inr (fails_modifyFile h hg hlt (by omega) ?_)
    rw [writeBody, hadd]
    exact Prog.fails_bind_right hrun₁ (Prog.fails_bind_left hfail _)

end

section

variable {ro : Bool} (h : FsInv efs b d sb blk contents) (hg : Geometry efs b db d) (hcap : 1 < cap)
  (hk : contents[k]? = some c)
include h hg hcap hk

/-- `DiskInode::read_at` on a file of the file system reads its byte list. -/
theorem run_readAt_file {x : Nat} (hx : x < 1 + 1025 * b) (hoff : off < 2 ^ 64)
    (hbuf : buf.length < 2 ^ 63) :
    ((efs.diskInode blk k).readAt off buf).run cap ro ⟨blk, [x]⟩ =
      some (readBytes c off buf, ⟨blk, [x]⟩) := by
  obtain ⟨hlt, -⟩ := List.getElem?_eq_some_iff.mp hk
  have hrep := h.rep hk
  have hle := le_blocksFor c.length
  have hheld : ∀ id ∈ tree (efs.diskInode blk k) blk
      (blocksFor (efs.diskInode blk k).size.toNat), id.toNat ∉ [x] := by
    intro id hid hmem
    have hge := (h.mem_range hg hlt hid).1
    rw [mem_singleton] at hmem
    omega
  have hrun : ((efs.diskInode blk k).readAt off buf).run cap ro ⟨blk, [x]⟩ = _ :=
    run_readAt (by rw [hrep.size]; exact hrep.bound) hheld (by simpa using hcap) hoff hbuf
  have hbytes : (range' off (min buf.length (c.length - off))).map
      (fileByte (efs.diskInode blk k) blk) =
      (c.drop off).take (min buf.length (c.length - off)) := by
    apply ext_getElem
    · simp
    · intro i hi _
      simp only [length_map, length_range'] at hi
      have hlt : off + i < c.length := by omega
      simp only [getElem_map, getElem_range', getElem_take, getElem_drop, Nat.one_mul]
      rw [hrep.bytes (off + i) (by omega), getElem?_eq_getElem hlt]
      rfl
  rw [hrep.size, hbytes] at hrun
  exact hrun

/-- `read_at` returns the bytes of the file and changes no block. -/
theorem run_read (hoff : off < 2 ^ 64) (hbuf : buf.length < 2 ^ 63) :
    ((ofId efs (ofNat k)).readAt off buf).run cap ro ⟨blk, []⟩ =
      some (readBytes c off buf, ⟨blk, []⟩) := by
  obtain ⟨hlt, -⟩ := List.getElem?_eq_some_iff.mp hk
  have hcount := h.count
  apply run_readFile h hg hlt (by omega)
  exact run_readAt_file h hg hcap hk (by omega) hoff hbuf

end

/-- `clear`, up to the final `block_cache_sync_all`. -/
theorem run_clear_renewed (hcap : 2 < cap) (h : FsInv efs b d sb blk contents)
    (hg : Geometry efs b db d) (hk : contents[k]? = some c) :
    ∃ blk', ((ofId efs (ofNat k)).modifyDiskInode
        (clearBody efs)).run cap false ⟨blk, []⟩ = some ((), ⟨blk', []⟩) ∧
      Renewed efs b d sb blk contents blk' (contents.set k []) := by
  obtain ⟨hlt, -⟩ := List.getElem?_eq_some_iff.mp hk
  have hcount := h.count
  have hrep := h.rep hk
  have hp := Pending.start h hk
  have hbm := hg.dataBitmap_start
  have hsize : (efs.diskInode blk k).size.toNat ≤ 8468480 := by
    rw [hrep.size]
    exact hrep.bound
  have hcur : (efs.diskInode blk k).dataBlocks.toNat = blocksFor c.length := by
    rw [dataBlocks, toNat_dataBlocksOf hsize, hrep.size]
  have hheld := hp.not_held hg (show k < 4096 * b by omega)
  obtain ⟨d', hrun₁, hemptied⟩ := run_clearSize_emptied false hcur (blocksFor_le hrep.bound)
    hp.nodup hheld (show [1 + b + k / 4].length + 1 < cap from hcap)
  obtain ⟨blk₂, hrun₂, hdata₂, hoff₂⟩ := run_deallocDatas hg _ hp.data hp.nodup hp.fresh
    (Pending.dataBitmap_not_held hg (by omega)) hheld
    (show [1 + b + k / 4].length < cap by simp; omega)
  -- the record in hand now stands for the empty file
  have hempty : Pending efs d blk contents.length k [] d' blk₂ := by
    have htree : tree d' blk₂ (blocksFor ([] : List UInt8).length) = [] := rfl
    refine ⟨⟨by rw [hemptied.size]; rfl, by simp, fun i hi => absurd hi (by simp [blocksFor])⟩,
      hemptied.type_, by rw [htree]; exact nodup_nil, by rw [htree]; simp,
      by rw [htree]; exact hdata₂, ?_⟩
    intro x hbitmap hold _
    refine hoff₂ x hbitmap ?_
    rw [← h.treeOf_eq hk]
    exact hold
  have hcheck : ((tree (efs.diskInode blk k) blk (blocksFor c.length)).length ==
      (totalBlocks (efs.diskInode blk k).size).toNat) = true := by
    rw [beq_iff_eq, toNat_totalBlocks hsize, hrep.size, tree, length_map, length_slots]
  have hfinish := hempty.renewed h hg hlt fun htidy => by
    rw [hrep.size] at htidy
    exact htidy.emptied hemptied blk₂
  refine ⟨_, run_modifyFile h hg hlt (by omega) ?_, hfinish⟩
  rw [clearBody]
  refine (run_bind_some hrun₁).trans ?_
  simp only
  rw [hcheck, run_bind_some (run_check_true _), run_bind_some hrun₂]
  rfl

end Operations

end RCore.EasyFs
