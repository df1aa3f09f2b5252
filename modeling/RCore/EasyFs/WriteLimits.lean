import RCore.EasyFs.FsProperties

/-!
# Writes that do not fit

`Inode::write_at` allocates the blocks of the new size before any bound is checked,
and it has no way to report a failure.  What it returns is read off the program
alone: the loop counts the bytes from the offset to the end of the range, so that a
call that returns at all returns the length of the buffer.
-/

namespace RCore.EasyFs

open RCore.Lib.LockedStore Prog DiskInode Option UInt32
open EasyFileSystem (layout)

/-! ## What the programs return -/

/-- The loop of `write_at` counts the bytes of its range. -/
theorem returns_writeLoop (d : DiskInode) (buf : List UInt8) (stop : Nat) {start : Nat}
    (hle : start ≤ stop) (startBlock writeSize : Nat) :
    (d.writeLoop stop start startBlock writeSize buf).Returns
      fun n => n = writeSize + (stop - start) := by
  induction hn : stop - start using Nat.strong_induction_on
    generalizing start startBlock writeSize with
  | _ n ih =>
  have hend : start ≤ endOfBlock start stop ∧ endOfBlock start stop ≤ stop := by
    unfold endOfBlock blockSz
    omega
  rw [writeLoop]
  refine returns_bind (returns_any _) fun id _ => ?_
  refine returns_bind (returns_any _) fun _ _ => ?_
  split
  · rename_i hstop
    exact returns_pure (by omega)
  · rename_i hstop
    have hless := endOfBlock_decreases hstop
    have hrest := ih _ (by omega) hend.2 (startBlock + 1)
      (writeSize + (endOfBlock start stop - start)) rfl
    exact hrest.mono fun n hn => by omega

theorem returns_writeAt (d : DiskInode) (off : Nat) (buf : List UInt8) :
    (d.writeAt off buf).Returns fun n =>
      off ≤ min (usizeAdd off buf.length) d.size.toNat ∧
        n = min (usizeAdd off buf.length) d.size.toNat - off := by
  rw [writeAt]
  refine returns_bind (returns_check _) fun _ hcheck => ?_
  have hle := of_decide_eq_true hcheck
  exact (returns_writeLoop d buf _ hle _ 0).mono fun n hn => ⟨hle, by omega⟩

/-! The steps of `increase_size` keep the size that it has stored at its start. -/

theorem returns_fillDirect (newBlocks : List UInt32) (current n : Nat) (d : DiskInode) :
    (d.fillDirect newBlocks current n).Returns fun r => r.1.size = d.size := by
  induction n generalizing d newBlocks current with
  | zero => exact returns_pure rfl
  | succ n ih =>
    rw [fillDirect]
    refine returns_bind (returns_any _) ?_
    rintro ⟨id, rest⟩ -
    exact ih rest (current + 1) { d with direct := d.direct.setIfInBounds current id }

section

variable (d : DiskInode) (newBlocks : List UInt32)
include d newBlocks

theorem returns_allocIndirect1 (current : Nat) :
    (d.allocIndirect1 newBlocks current).Returns fun r => r.1.size = d.size := by
  rw [allocIndirect1]
  split
  · exact returns_bind (returns_any _) fun r _ => returns_pure rfl
  · exact returns_pure rfl

theorem returns_allocIndirect2 (current : Nat) :
    (d.allocIndirect2 newBlocks current).Returns fun r => r.1.size = d.size := by
  rw [allocIndirect2]
  split
  · exact returns_bind (returns_any _) fun r _ => returns_pure rfl
  · exact returns_pure rfl

theorem returns_increaseIndirect2 (current total : Nat) :
    (d.increaseIndirect2 newBlocks current total).Returns fun d' => d'.size = d.size := by
  rw [increaseIndirect2]
  refine returns_bind (returns_allocIndirect2 d newBlocks current) ?_
  rintro ⟨d₁, rest⟩ hr
  dsimp only
  exact returns_bind (returns_any _) fun _ _ => returns_pure hr

theorem returns_increaseIndirect1 (current total : Nat) :
    (d.increaseIndirect1 newBlocks current total).Returns fun d' => d'.size = d.size := by
  rw [increaseIndirect1]
  refine returns_bind (returns_allocIndirect1 d newBlocks current) ?_
  rintro ⟨d₁, rest⟩ hr
  refine returns_bind (returns_any _) fun rest' _ => ?_
  split
  · exact (returns_increaseIndirect2 _ _ _ _).mono fun d' hd' => hd'.trans hr
  · exact returns_pure hr

end

theorem returns_increaseSize (d : DiskInode) (newSize : UInt32) (newBlocks : List UInt32) :
    (d.increaseSize newSize newBlocks).Returns fun d' => d'.size = newSize := by
  rw [increaseSize]
  refine returns_bind (returns_fillDirect _ _ _ _) ?_
  rintro ⟨d₁, rest⟩ hr
  dsimp only
  split
  · exact (returns_increaseIndirect1 _ _ _ _).mono fun d' hd' => hd'.trans hr
  · exact returns_pure hr

/-- `Inode::increase_size` never makes a file smaller. -/
theorem returns_inode_increaseSize (efs : EasyFileSystem) (newSize : UInt32) (d : DiskInode) :
    (Inode.increaseSize efs newSize d).Returns fun d' =>
      d'.size.toNat = max newSize.toNat d.size.toNat := by
  rw [Inode.increaseSize]
  split
  · rename_i hlt
    have hlt := lt_iff_toNat_lt.mp hlt
    exact returns_pure (by omega)
  · rename_i hge
    have hge := mt lt_iff_toNat_lt.mpr hge
    refine returns_bind (returns_any _) fun needed _ => ?_
    refine returns_bind (returns_any _) fun v _ => ?_
    refine (returns_increaseSize d newSize v).mono fun d' hd' => ?_
    rw [hd']
    omega

theorem returns_writeBody (efs : EasyFileSystem) (off : Nat) (buf : List UInt8) (d : DiskInode)
    (hsize : d.size.toNat ≤ maxFileSize)
    (hlen : off + buf.length < 2 ^ 32 ∨ buf.length + maxFileSize < 2 ^ 32) :
    (Inode.writeBody efs off buf d).Returns fun r => r.1 = buf.length := by
  rw [maxFileSize_eq] at hsize hlen
  rw [Inode.writeBody]
  refine returns_bind (returns_inode_increaseSize efs _ d) fun d' hd' => ?_
  refine returns_bind (returns_writeAt d' off buf) fun n hn => returns_pure ?_
  obtain ⟨hoff, rfl⟩ := hn
  rw [toNat_ofNat'] at hd'
  unfold usizeAdd at hd' hoff ⊢
  -- if the sum passed `2 ^ 32`, the offset would lie beyond the new size
  omega

/-! ## What a write leaves -/

variable {T b : UInt32} {m m' : Machine} {contents : List (List UInt8)}

theorem ContentsInv.contentsFit (h : ContentsInv T b m contents) : ContentsFit T b contents := by
  have hmax : (layout T b).inodeBitmap.maximum = b.toNat * 4096 := rfl
  have hcount := h.inv.count
  refine ⟨by omega, h.inv.count_lt, ?_, ?_⟩
  · intro c hc
    obtain ⟨k, hk⟩ := List.mem_iff_getElem?.mp hc
    exact (h.inv.rep hk).bound
  · rw [← h.inv.length_usedBlocks]
    exact h.inv.data.length_le h.inv.nodup_usedBlocks

theorem ContentsInv.size_of_call_write (h : ContentsInv T b m contents) {k : Nat} {c : List UInt8}
    (hk : contents[k]? = some c) {off : Nat} {buf : List UInt8}
    (hlen : off + buf.length < 2 ^ 32 ∨ buf.length + maxFileSize < 2 ^ 32) {r : FsResult}
    (hcall : m.call (Inode.ofId (layout T b) (ofNat k)) (.write off buf) =
      some (r, m')) : r = .size buf.length := by
  rw [Machine.call, h.efs] at hcall
  obtain ⟨⟨n, s⟩, hexec, hr⟩ := bind_eq_some_iff.mp hcall
  cases hr
  rw [Inode.writeAt, exec_bind] at hexec
  obtain ⟨⟨n', s'⟩, hmodify, hsync⟩ := bind_eq_some_iff.mp hexec
  obtain ⟨s'', -, hret⟩ := bind_eq_some_iff.mp hsync
  cases hret
  have hrep := h.inv.rep hk
  have hbody := returns_writeBody (layout T b) off buf ((layout T b).diskInode m.cache.content k)
    (by rw [hrep.size]; exact hrep.bound) hlen
  have hn : n' = buf.length := by
    refine cache_simulation.of_exec_withModify (P := fun n => n = buf.length) h.holds.1
      List.not_mem_nil (show 0 < blockCacheSize by decide) ?_ hmodify
    refine returns_bind (returns_any _) fun _ _ => ?_
    exact returns_bind hbody fun _ hr => returns_pure hr
  rw [hn]

/-- The write at `off` is performed in full; or it does not fit, and is refused with every
block as it was. -/
def WriteHandled (T b : UInt32) (m : Machine) (contents : List (List UInt8)) (k : Nat)
    (inode : Inode) (off : Nat) (buf : List UInt8) : Prop :=
  ∃ n m', m.call inode (.write off buf) = some (.size n, m') ∧
    ((n = buf.length ∧ ContentsInv T b m' (contents.modify k fun c => writeBytes c off buf)) ∨
      (¬ContentsFit T b (contents.modify k fun c => writeBytes c off buf) ∧ n ≠ buf.length ∧
        m'.cache.content = m.cache.content))

theorem ContentsInv.fit_of_writeHandled (h : ContentsInv T b m contents) {k : Nat} {inode : Inode}
    (hk : m.inodes[k]? = some inode) {off : Nat} {buf : List UInt8}
    (hlen : off + buf.length < 2 ^ 32 ∨ buf.length + maxFileSize < 2 ^ 32)
    (hhandled : WriteHandled T b m contents k inode off buf) :
    ContentsFit T b (contents.modify k fun c => writeBytes c off buf) := by
  obtain ⟨c, hc, rfl⟩ := h.of_getElem_inodes hk
  obtain ⟨n, m', hcall, ⟨-, hinv⟩ | ⟨-, hne, -⟩⟩ := hhandled
  · exact hinv.contentsFit
  · have hsize := h.size_of_call_write hc hlen hcall
    cases hsize
    exact absurd rfl hne

/-- **Writes at the limits.**  In every state of a run of calls, on every inode in hand, a
write of a non-empty buffer is performed if what it leaves fits: the file is no longer than
its index blocks can address, and all files together need no more blocks than the data area
has.  Otherwise it is neither performed nor refused.  This converse leaves out buffers near
`2 ^ 32` bytes whose end passes `2 ^ 32`: there the truncated size can lie between the offset
and the end, and the call returns a short count. -/
theorem write_handled_iff {T b : UInt32} (hfit : LayoutFits T b) (dev : Nat → Block) {m : Machine}
    {contents : List (List UInt8)} (h : InodeReaches T b dev m contents) {k : Nat} {inode : Inode}
    (hk : m.inodes[k]? = some inode) (off : Nat) {buf : List UInt8} (hbuf : buf ≠ []) :
    (ContentsFit T b (contents.modify k fun c => writeBytes c off buf) →
      WriteHandled T b m contents k inode off buf) ∧
    (off + buf.length < 2 ^ 32 ∨ buf.length + maxFileSize < 2 ^ 32 →
      WriteHandled T b m contents k inode off buf →
        ContentsFit T b (contents.modify k fun c => writeBytes c off buf)) := by
  have hinv := h.contentsInv hfit
  refine ⟨fun hfits => ?_, fun hlen => hinv.fit_of_writeHandled hk hlen⟩
  obtain ⟨c, hc, rfl⟩ := hinv.of_getElem_inodes hk
  rw [modify_eq_set hc] at hfits
  obtain ⟨s', hcall, hnext⟩ := hinv.call_write hfit hc hbuf hfits
  refine ⟨buf.length, _, hcall, Or.inl ⟨rfl, ?_⟩⟩
  rw [modify_eq_set hc]
  exact hnext.inv

/-- Three bytes behind a gap of a new file. -/
theorem write_handled_iff_gap : ∃ m file,
    InodeReaches 4096 1 (fun _ => Block.zero) m (Files.contents [("a", [])]) ∧
      m.inodes[1]? = some file ∧
      WriteHandled 4096 1 m (Files.contents [("a", [])]) 1 file 5 [1, 2, 3] := by
  obtain ⟨m, h, hfile⟩ := exists_inodeReaches_oneFile
  have hfits : Files.Fits 4096 1 [("a", [0, 0, 0, 0, 0, 1, 2, 3])] :=
    ⟨by decide, by decide +kernel, by decide +kernel⟩
  exact ⟨m, _, h, hfile, (write_handled_iff layoutFits_small _ h hfile 5 (by simp)).1
    hfits.contentsFit⟩

/-- On a new file of a file system of 4096 blocks, of which 3069 hold data: a byte behind what
the index blocks address, a byte at an offset that 32 bits do not hold, and more blocks than
there are. -/
theorem write_not_refused : ∃ m file,
    InodeReaches 4096 1 (fun _ => Block.zero) m (Files.contents [("a", [])]) ∧
      m.inodes[1]? = some file ∧
      ¬WriteHandled 4096 1 m (Files.contents [("a", [])]) 1 file 8468480 [1] ∧
      ¬WriteHandled 4096 1 m (Files.contents [("a", [])]) 1 file (2 ^ 32) [1] ∧
      ¬WriteHandled 4096 1 m (Files.contents [("a", [])]) 1 file 0
        (List.replicate (3070 * 512) 1) := by
  obtain ⟨m, h, hfile⟩ := exists_inodeReaches_oneFile
  have hinv := h.contentsInv layoutFits_small
  have hlong : ∀ off, 8468480 ≤ off →
      ¬WriteHandled 4096 1 m (Files.contents [("a", [])]) 1 (handle 4096 1 0) off [1] := by
    intro off hoff hhandled
    have hfits := hinv.fit_of_writeHandled hfile (Or.inr (by decide)) hhandled
    have hsize := hfits.sizes (writeBytes [] off [1]) (by simp [Files.contents])
    rw [length_writeBytes, maxFileSize_eq, List.length_singleton] at hsize
    omega
  refine ⟨m, _, h, hfile, hlong _ le_rfl, hlong _ (by decide), fun hhandled => ?_⟩
  have hlen : (List.replicate (3070 * 512) (1 : UInt8)).length = 3070 * 512 := List.length_replicate
  have hfits := hinv.fit_of_writeHandled hfile (Or.inl (by rw [hlen]; decide)) hhandled
  have hblocks := hfits.blocks
  have hset : (Files.contents [("a", [])]).modify 1 (fun c => writeBytes c 0
      (List.replicate (3070 * 512) 1)) =
      [dirBytes ["a"], writeBytes [] 0 (List.replicate (3070 * 512) 1)] := rfl
  rw [hset, blocksUsed] at hblocks
  simp only [List.map_cons, List.map_nil, List.sum_cons, List.sum_nil, length_writeBytes,
    hlen, List.length_nil] at hblocks
  revert hblocks
  decide +kernel

end RCore.EasyFs
