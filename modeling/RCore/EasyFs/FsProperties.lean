import RCore.EasyFs.InodeRuns

/-!
# Properties of the file system

What holds in every state of every run that begins with `EasyFileSystem::create`:
files are byte lists, the root directory is an insertion-ordered map, the data
bitmap marks exactly the blocks in use, and the device alone determines the file
system between calls.
-/

namespace RCore.EasyFs

open RCore.Lib.LockedStore List Inode
open EasyFileSystem (layout superBlock usedBlocks)

variable {contents : List (List UInt8)}

section Views

variable {T b : UInt32} {m : Machine} {fs : Files}

theorem MachineInv.contents_eq (h : MachineInv T b m fs) : m.contents = fs.map Prod.snd := by
  apply ext_getElem?
  intro i
  rw [Machine.contents, h.files]
  simp only [getElem?_map, getElem?_mapIdx]
  cases hf : fs[i]? with
  | none => rfl
  | some f =>
    have hc : fs.contents[i + 1]? = some f.2 := by rw [fs.contents_succ, hf]; rfl
    simp only [Option.map_some]
    exact congrArg some (h.contentsInv.contentOf_eq hc)

theorem MachineInv.directory_eq (h : MachineInv T b m fs) : m.directory = dirBytes fs.names := by
  rw [Machine.directory, h.efs]
  exact h.contentsInv.contentOf_eq fs.contents_zero

theorem map_snd_modify (fs : Files) (i : Nat) (φ : List UInt8 → List UInt8) :
    (fs.modify i fun f => (f.1, φ f.2)).map Prod.snd = (fs.map Prod.snd).modify i φ := by
  apply ext_getElem?
  intro k
  simp only [getElem?_map, getElem?_modify]
  cases fs[k]? with
  | none => rfl
  | some f =>
    simp only [Option.map_some]
    split <;> rfl

end Views

/-! ## A small run

The arguments of the user image's host-side test, and one file on the new file system. -/

theorem layoutFits_small : LayoutFits 4096 1 := ⟨by decide, by decide, by decide⟩

theorem fits_oneFile : Files.Fits 4096 1 [("a", [])] where
  inodes := by decide
  sizes := by decide +kernel
  blocks := by decide +kernel

theorem exists_reaches_oneFile :
    ∃ m, Reaches 4096 1 (fun _ => Block.zero) m [("a", [])] := by
  obtain ⟨m, hm, hinv⟩ := machineInv_create layoutFits_small fun _ => Block.zero
  have hop : Allowed 4096 1 [] (.create "a") := ⟨(by decide +kernel : NameOk "a"), fits_oneFile⟩
  obtain ⟨r, m', hstep, -⟩ := step_machineInv layoutFits_small hinv hop
  exact ⟨m', .step (.start hm) hop hstep⟩

theorem exists_inodeReaches_oneFile :
    ∃ m, InodeReaches 4096 1 (fun _ => Block.zero) m (Files.contents [("a", [])]) ∧
      m.inodes[1]? = some (handle 4096 1 0) := by
  obtain ⟨m, hm, hinv⟩ := machineInv_create layoutFits_small fun _ => Block.zero
  obtain ⟨m', hcall, -, hfiles⟩ := step_create_new layoutFits_small hinv
    (by decide +kernel : NameOk "a") not_mem_nil fits_oneFile
  have hnext : nextContents [[]] 0 (.create "a") (.inode (some (handle 4096 1 0))) =
      Files.contents [("a", [])] := by decide +kernel
  refine ⟨m', ?_, by rw [Machine.inodes, hfiles, hinv.files]; rfl⟩
  rw [← hnext]
  exact (InodeReaches.start hm).call (k := 0) rfl (show InodeCall.Valid (.create "a") from trivial)
    hcall (hnext ▸ fits_oneFile.contentsFit)

/-! ## Files as byte lists -/

/-- What a call may do to byte lists: writes, reads and clears act on the one file they name,
and every other file and the directory keep their bytes; a creation adds at most an empty
file. -/
def FileStep (m : Machine) (op : FsOp) (r : FsResult) (m' : Machine) : Prop :=
  match op with
  | .write i off buf =>
      r = .size buf.length ∧ m'.contents = m.contents.modify i (fun c => writeBytes c off buf) ∧
        m'.directory = m.directory
  | .read i off buf =>
      (∃ c, m.contents[i]? = some c ∧ r = .bytes (readBytes c off buf)) ∧
        m'.contents = m.contents ∧ m'.directory = m.directory
  | .clear i =>
      r = .unit ∧ m'.contents = m.contents.modify i (fun _ => []) ∧ m'.directory = m.directory
  | .create _ => m'.contents = m.contents ∨ m'.contents = m.contents ++ [[]]
  | .find _ | .ls => m'.contents = m.contents ∧ m'.directory = m.directory

/-- **Files are byte lists.**  `create` returns, and in every state that allowed calls reach,
every further allowed call returns and acts on the contents of the files as the operation on
byte lists does. -/
theorem files_are_byte_lists {T b : UInt32} (hfit : LayoutFits T b) (dev : Nat → Block) :
    (∃ m, Machine.create T b dev = some m) ∧
    ∀ m fs, Reaches T b dev m fs → m.contents = fs.map Prod.snd ∧
      ∀ op, Allowed T b fs op → ∃ r m', m.step op = some (r, m') ∧ FileStep m op r m' := by
  refine ⟨(machineInv_create hfit dev).imp fun m hm => hm.1, ?_⟩
  intro m fs hm
  have h := hm.machineInv hfit
  have hcontents := h.contents_eq
  have hdirectory := h.directory_eq
  refine ⟨hcontents, ?_⟩
  -- a call that changes no block changes no contents
  have hsame : ∀ s', Holds s' m.cache.content →
      Machine.contents { m with cache := s' } = m.contents ∧
      Machine.directory { m with cache := s' } = m.directory := by
    intro s' hs'
    have h' := h.next_readOnly hs'
    rw [h'.contents_eq, h'.directory_eq, hcontents, hdirectory]
    exact ⟨rfl, rfl⟩
  intro op hop
  cases op with
  | create name =>
    by_cases hmem : name ∈ fs.names
    · obtain ⟨s', hstep, hholds⟩ := step_create_existing hfit h hmem
      exact ⟨_, _, hstep, Or.inl (hsame s' hholds).1⟩
    · have hfits := hop.2
      rw [Files.step, if_neg hmem] at hfits
      obtain ⟨m', hstep, hinv, -⟩ := step_create_new hfit h hop.1 hmem hfits
      refine ⟨_, m', hstep, Or.inr ?_⟩
      rw [hinv.contents_eq, hcontents]
      simp
  | find name =>
    obtain ⟨s', hstep, hholds⟩ := step_find hfit h name
    exact ⟨_, _, hstep, hsame s' hholds⟩
  | ls =>
    obtain ⟨s', hstep, hholds⟩ := step_ls hfit h
    exact ⟨_, _, hstep, hsame s' hholds⟩
  | write i off buf =>
    obtain ⟨m', hstep, hinv, -⟩ := step_write hfit h
      (List.getElem?_eq_getElem hop.1.1) hop.1.2 hop.2
    refine ⟨_, m', hstep, rfl, ?_, ?_⟩
    · rw [hinv.contents_eq, hcontents]
      exact map_snd_modify fs i fun c => writeBytes c off buf
    · rw [hinv.directory_eq, hdirectory]
      exact congrArg dirBytes (Files.names_modify fs i fun c => writeBytes c off buf)
  | read i off buf =>
    have hf := List.getElem?_eq_getElem hop.1.1
    obtain ⟨s', hstep, hholds⟩ := step_read hfit h hf hop.1.2.1 hop.1.2.2
    refine ⟨_, _, hstep, ⟨_, ?_, rfl⟩, hsame s' hholds⟩
    rw [hcontents, List.getElem?_map, hf]
    rfl
  | clear i =>
    obtain ⟨m', hstep, hinv, -⟩ := step_clear hfit h (List.getElem?_eq_getElem hop.1)
    refine ⟨_, m', hstep, rfl, ?_, ?_⟩
    · rw [hinv.contents_eq, hcontents]
      exact map_snd_modify fs i fun _ => []
    · rw [hinv.directory_eq, hdirectory]
      exact congrArg dirBytes (Files.names_modify fs i fun _ => [])

/-- Three bytes written at offset 5 of an empty file follow five zeros. -/
theorem files_are_byte_lists_gap :
    ∃ m r m', Reaches 4096 1 (fun _ => Block.zero) m [("a", [])] ∧
      m.step (.write 0 5 [1, 2, 3]) = some (r, m') ∧ r = .size 3 ∧
      m'.contents = [[0, 0, 0, 0, 0, 1, 2, 3]] := by
  obtain ⟨m, hm⟩ := exists_reaches_oneFile
  have hfits : Files.Fits 4096 1 [("a", [0, 0, 0, 0, 0, 1, 2, 3])] :=
    ⟨by decide, by decide +kernel, by decide +kernel⟩
  obtain ⟨hcontents, hstep⟩ :=
    (files_are_byte_lists layoutFits_small fun _ => Block.zero).2 m _ hm
  obtain ⟨r, m', hm', hr, hc, -⟩ := hstep (.write 0 5 [1, 2, 3])
    ⟨⟨by decide, by simp⟩, hfits⟩
  refine ⟨m, r, m', hm, hm', hr, ?_⟩
  rw [hc, hcontents]
  rfl

/-! ## The root directory -/

section Handles

variable {T b : UInt32} {m : Machine} {fs : Files}

theorem lookup_mapIdx {β : Type} (fs : Files) (g : Nat → β) (name : String) :
    (fs.mapIdx fun k f => (f.1, g k)).lookup name = (fs.names.idxOf? name).map g := by
  induction fs generalizing g with
  | nil => rfl
  | cons f fs ih =>
    rw [mapIdx_cons, lookup_cons, Files.names, map_cons, idxOf?_cons]
    by_cases hname : f.1 = name
    · simp [hname]
    · have hne : (f.1 == name) = false := by simpa using hname
      have hne' : (name == f.1) = false := by simpa using Ne.symm hname
      have hih := ih fun k => g (k + 1)
      rw [Files.names] at hih
      simp only [hne, hne', hih, Bool.false_eq_true, if_false, Option.map_map]
      rfl

/-- `find` looks the name up among the created files. -/
theorem MachineInv.lookup_eq (h : MachineInv T b m fs) (name : String) :
    (inodeIdOf fs.names name).map (ofId (layout T b)) =
      m.files.lookup name := by
  rw [h.files, lookup_mapIdx, inodeIdOf, Option.map_map]
  rfl

theorem MachineInv.names_eq (h : MachineInv T b m fs) : m.files.map Prod.fst = fs.names := by
  rw [h.files, Files.names]
  apply ext_getElem <;> simp

theorem MachineInv.handle_eq (h : MachineInv T b m fs) (hfit : LayoutFits T b) {k : Nat}
    (hk : k < fs.length) :
    handle T b k = ⟨1 + b.toNat + (k + 1) / 4, (k + 1) % 4 * 128⟩ :=
  h.inv.ofId_eq hfit.geometry (by rw [Files.length_contents]; omega)

theorem MachineInv.nodup_handles (h : MachineInv T b m fs) (hfit : LayoutFits T b) :
    (rootInode m.efs :: m.files.map Prod.snd).Nodup := by
  have hroot : rootInode m.efs = ⟨1 + b.toNat, 0⟩ := by
    rw [h.efs]
    exact h.inv.ofId_eq hfit.geometry (k := 0) (by simp)
  have hsnd : m.files.map Prod.snd = (List.range fs.length).map (handle T b) := by
    rw [h.files]
    apply ext_getElem <;> simp
  rw [hroot, hsnd, nodup_cons]
  constructor
  · intro hmem
    obtain ⟨k, hk, he⟩ := mem_map.mp hmem
    rw [h.handle_eq hfit (List.mem_range.mp hk), mk.injEq] at he
    omega
  · apply Nodup.map_on ?_ List.nodup_range
    intro k hk k' hk' he
    rw [h.handle_eq hfit (List.mem_range.mp hk), h.handle_eq hfit (List.mem_range.mp hk'),
      mk.injEq] at he
    omega

end Handles

/-- What a call may do to the directory: the created files, with their names and handles, are
an insertion-ordered map. -/
def DirectoryStep (m : Machine) (op : FsOp) (r : FsResult) (m' : Machine) : Prop :=
  match op with
  | .create name =>
      if name ∈ m.files.map Prod.fst then
        r = .inode none ∧ m'.files = m.files ∧ m'.contents = m.contents ∧
          m'.directory = m.directory
      else
        ∃ h, r = .inode (some h) ∧ h ∉ Inode.rootInode m.efs :: m.files.map Prod.snd ∧
          m'.files = m.files ++ [(name, h)] ∧ m'.contentOf h = []
  | .find name => r = .inode (m.files.lookup name) ∧ m'.files = m.files
  | .ls => r = .names (m.files.map Prod.fst) ∧ m'.files = m.files
  | .write _ _ _ | .read _ _ _ | .clear _ => m'.files = m.files

/-- **The root is an insertion-ordered map.**  In every state of a run the created names are
pairwise different, and every allowed call returns and acts on the created files as the
operation on the map does. -/
theorem root_is_ordered_map {T b : UInt32} (hfit : LayoutFits T b) (dev : Nat → Block)
    {m : Machine} {fs : Files} (hm : Reaches T b dev m fs) :
    (m.files.map Prod.fst).Nodup ∧
    ∀ op, Allowed T b fs op → ∃ r m', m.step op = some (r, m') ∧ DirectoryStep m op r m' := by
  have h := hm.machineInv hfit
  have hnames := h.names_eq
  refine ⟨hnames ▸ h.nodup, ?_⟩
  intro op hop
  cases op with
  | create name =>
    by_cases hmem : name ∈ fs.names
    · obtain ⟨s', hstep, hholds⟩ := step_create_existing hfit h hmem
      have h' := h.next_readOnly hholds
      refine ⟨_, _, hstep, ?_⟩
      rw [DirectoryStep, if_pos (hnames ▸ hmem), h'.contents_eq, h'.directory_eq,
        h.contents_eq, h.directory_eq]
      exact ⟨rfl, rfl, rfl, rfl⟩
    · have hfits := hop.2
      rw [Files.step, if_neg hmem] at hfits
      obtain ⟨m', hstep, hinv, hfiles⟩ := step_create_new hfit h hop.1 hmem hfits
      refine ⟨_, m', hstep, ?_⟩
      rw [DirectoryStep, if_neg (hnames ▸ hmem)]
      refine ⟨_, rfl, ?_, hfiles, ?_⟩
      · -- in the new state all handles are different, and this one is the last
        have hnodup := hinv.nodup_handles hfit
        rw [hfiles, List.map_append, ← List.cons_append, hinv.efs, ← h.efs] at hnodup
        intro hin
        exact (List.nodup_append.mp hnodup).2.2 _ hin _ (by simp) rfl
      · have hlast : (Files.contents (fs ++ [(name, [])]))[fs.length + 1]? = some [] := by
          rw [Files.contents_succ]
          simp
        exact hinv.contentsInv.contentOf_eq hlast
  | find name =>
    obtain ⟨s', hstep, -⟩ := step_find hfit h name
    exact ⟨_, _, hstep, congrArg FsResult.inode (h.lookup_eq name), rfl⟩
  | ls =>
    obtain ⟨s', hstep, -⟩ := step_ls hfit h
    exact ⟨_, _, hstep, congrArg FsResult.names hnames.symm, rfl⟩
  | write i off buf =>
    obtain ⟨m', hstep, -, hfiles⟩ := step_write hfit h
      (List.getElem?_eq_getElem hop.1.1) hop.1.2 hop.2
    exact ⟨_, m', hstep, hfiles⟩
  | read i off buf =>
    obtain ⟨s', hstep, -⟩ := step_read hfit h
      (List.getElem?_eq_getElem hop.1.1) hop.1.2.1 hop.1.2.2
    exact ⟨_, _, hstep, rfl⟩
  | clear i =>
    obtain ⟨m', hstep, -, hfiles⟩ := step_clear hfit h (List.getElem?_eq_getElem hop.1)
    exact ⟨_, m', hstep, hfiles⟩

/-- A name that exists is not created again. -/
theorem root_is_ordered_map_existing :
    ∃ m m', Reaches 4096 1 (fun _ => Block.zero) m [("a", [])] ∧
      m.step (.create "a") = some (.inode none, m') ∧ m'.files = m.files := by
  obtain ⟨m, hm⟩ := exists_reaches_oneFile
  have hnames := (hm.machineInv layoutFits_small).names_eq
  obtain ⟨-, hstep⟩ := root_is_ordered_map layoutFits_small (fun _ => Block.zero) hm
  obtain ⟨r, m', hm', hdir⟩ := hstep (.create "a") ⟨(by decide +kernel : NameOk "a"), fits_oneFile⟩
  rw [DirectoryStep, if_pos (hnames ▸ by decide)] at hdir
  exact ⟨m, m', hm, hdir.1 ▸ hm', hdir.2.1⟩

/-! ## Blocks in use -/

theorem FsInv.nodup_usedBlocks {efs : EasyFileSystem} {n d : Nat} {sb : SuperBlock}
    {blk : Nat → Block} (h : FsInv efs n d sb blk contents) :
    (efs.usedBlocks blk contents.length).Nodup := by
  rw [usedBlocks, List.nodup_flatMap]
  refine ⟨fun k hk => h.nodup k (List.mem_range.mp hk), ?_⟩
  refine List.nodup_range.imp_of_mem ?_
  intro k k' hk hk' hne id hid
  exact h.disjoint k (List.mem_range.mp hk) k' (List.mem_range.mp hk') hne id hid

/-- The bitmaps of a machine that holds `contents`. -/
theorem ContentsInv.bitmaps {T b : UInt32} {m : Machine} (h : ContentsInv T b m contents) :
    (∀ k < m.efs.inodeBitmap.maximum, m.efs.inodeBitmap.bitAt m.cache.content k = true ↔
      k < contents.length) ∧
    (∀ j < m.efs.dataBitmap.maximum, m.efs.dataBitmap.bitAt m.cache.content j = true ↔
      ∃ id ∈ m.efs.usedBlocks m.cache.content contents.length,
        id.toNat = m.efs.dataAreaStartBlock.toNat + j) ∧
    (∀ id ∈ m.efs.usedBlocks m.cache.content contents.length,
      m.efs.dataAreaStartBlock.toNat ≤ id.toNat ∧ id.toNat < m.efs.dataAreaStartBlock.toNat +
        (superBlock T b).dataAreaBlocks.toNat) ∧
    (m.efs.usedBlocks m.cache.content contents.length).Nodup ∧
    (∀ j < (superBlock T b).dataAreaBlocks.toNat,
      m.efs.dataBitmap.bitAt m.cache.content j = false →
        m.cache.content (m.efs.dataAreaStartBlock.toNat + j) = Block.zero) := by
  rw [h.efs]
  refine ⟨?_, ?_, h.inv.data.range, h.inv.nodup_usedBlocks, h.inv.data.free_zero⟩
  · intro k hk
    have hmax : (layout T b).inodeBitmap.maximum = b.toNat * 4096 := rfl
    rw [h.inv.inodeBits k (by omega), decide_eq_true_eq]
  · intro j hj
    have hmax : (layout T b).dataBitmap.maximum = (layout T b).dataBitmap.blocks * 4096 := rfl
    exact h.inv.data.bits j (by omega)

/-- **The bitmaps are exact.**  In every state of a run: the inode bitmap marks the root and
the created files; the data bitmap marks exactly the blocks in the trees of these inodes, all
of which lie in the data area; no block occurs twice in these trees; a block of the data area
that is not marked is zero; and clearing a file, with the assertions on the way, succeeds. -/
theorem bitmaps_are_exact {T b : UInt32} (hfit : LayoutFits T b) (dev : Nat → Block)
    {m : Machine} {fs : Files} (hm : Reaches T b dev m fs) :
    (∀ k < m.efs.inodeBitmap.maximum, m.efs.inodeBitmap.bitAt m.cache.content k = true ↔
      k < m.files.length + 1) ∧
    (∀ j < m.efs.dataBitmap.maximum, m.efs.dataBitmap.bitAt m.cache.content j = true ↔
      ∃ id ∈ m.efs.usedBlocks m.cache.content (m.files.length + 1),
        id.toNat = m.efs.dataAreaStartBlock.toNat + j) ∧
    (∀ id ∈ m.efs.usedBlocks m.cache.content (m.files.length + 1),
      m.efs.dataAreaStartBlock.toNat ≤ id.toNat ∧ id.toNat < m.efs.dataAreaStartBlock.toNat +
        (EasyFileSystem.superBlock T b).dataAreaBlocks.toNat) ∧
    (m.efs.usedBlocks m.cache.content (m.files.length + 1)).Nodup ∧
    (∀ j < (EasyFileSystem.superBlock T b).dataAreaBlocks.toNat,
      m.efs.dataBitmap.bitAt m.cache.content j = false →
        m.cache.content (m.efs.dataAreaStartBlock.toNat + j) = Block.zero) ∧
    ∀ i < m.files.length, ∃ m', m.step (.clear i) = some (.unit, m') := by
  have h := hm.machineInv hfit
  have hfiles : m.files.length = fs.length := by simp [h.files]
  have hlength : m.files.length + 1 = fs.contents.length := by simp [hfiles]
  rw [hlength]
  obtain ⟨hinodes, hdata, hrange, hnodup, hzero⟩ := h.contentsInv.bitmaps
  refine ⟨hinodes, hdata, hrange, hnodup, hzero, ?_⟩
  intro i hi
  obtain ⟨m', hstep, -, -⟩ := step_clear hfit h (List.getElem?_eq_getElem (hfiles ▸ hi))
  exact ⟨m', hstep⟩

/-- With one file, the inode bits 0 and 1 are set and bit 2 is clear. -/
theorem bitmaps_are_exact_oneFile :
    ∃ m, Reaches 4096 1 (fun _ => Block.zero) m [("a", [])] ∧
      m.efs.inodeBitmap.bitAt m.cache.content 1 = true ∧
      ¬ m.efs.inodeBitmap.bitAt m.cache.content 2 = true := by
  obtain ⟨m, hm⟩ := exists_reaches_oneFile
  have h := hm.machineInv layoutFits_small
  obtain ⟨hbits, -⟩ := bitmaps_are_exact layoutFits_small (fun _ => Block.zero) hm
  have hlength : m.files.length = 1 := by simp [h.files]
  have hmax : m.efs.inodeBitmap.maximum = 4096 := by
    rw [h.efs]
    rfl
  rw [hlength, hmax] at hbits
  exact ⟨m, hm, (hbits 1 (by decide)).mpr (by decide),
    fun hbit => absurd ((hbits 2 (by decide)).mp hbit) (by decide)⟩

theorem inode_runs_keep_bitmaps_exact {T b : UInt32} (hfit : LayoutFits T b) (dev : Nat → Block)
    {m : Machine} (hm : InodeReaches T b dev m contents) :
    (∀ k < m.efs.inodeBitmap.maximum, m.efs.inodeBitmap.bitAt m.cache.content k = true ↔
      k < m.inodes.length) ∧
    (∀ j < m.efs.dataBitmap.maximum, m.efs.dataBitmap.bitAt m.cache.content j = true ↔
      ∃ id ∈ m.efs.usedBlocks m.cache.content m.inodes.length,
        id.toNat = m.efs.dataAreaStartBlock.toNat + j) ∧
    (∀ id ∈ m.efs.usedBlocks m.cache.content m.inodes.length,
      m.efs.dataAreaStartBlock.toNat ≤ id.toNat ∧ id.toNat < m.efs.dataAreaStartBlock.toNat +
        (superBlock T b).dataAreaBlocks.toNat) ∧
    (m.efs.usedBlocks m.cache.content m.inodes.length).Nodup ∧
    (∀ j < (superBlock T b).dataAreaBlocks.toNat,
      m.efs.dataBitmap.bitAt m.cache.content j = false →
        m.cache.content (m.efs.dataAreaStartBlock.toNat + j) = Block.zero) ∧
    ∀ inode ∈ m.inodes, ∃ m', m.call inode .clear = some (.unit, m') := by
  have h := hm.contentsInv hfit
  rw [h.length_inodes]
  obtain ⟨hinodes, hdata, hrange, hnodup, hzero⟩ := h.bitmaps
  refine ⟨hinodes, hdata, hrange, hnodup, hzero, ?_⟩
  intro inode hinode
  obtain ⟨k, hk⟩ := mem_iff_getElem?.mp hinode
  obtain ⟨c, hc, rfl⟩ := h.of_getElem_inodes hk
  obtain ⟨s', hclear, -⟩ := h.call_clear hfit hc
  exact ⟨_, hclear⟩

theorem inode_runs_keep_bitmaps_exact_oneFile :
    ∃ m, InodeReaches 4096 1 (fun _ => Block.zero) m (Files.contents [("a", [])]) ∧
      (m.efs.usedBlocks m.cache.content m.inodes.length).Nodup := by
  obtain ⟨m, hm, -⟩ := exists_inodeReaches_oneFile
  obtain ⟨-, -, -, hnodup, -⟩ := inode_runs_keep_bitmaps_exact layoutFits_small _ hm
  exact ⟨m, hm, hnodup⟩

/-! ## The device between calls -/

/-- Calls that only look. -/
def FsOp.IsQuery : FsOp → Prop
  | .find _ | .ls | .read _ _ _ => True
  | .create _ | .write _ _ _ | .clear _ => False

theorem step_query {T b : UInt32} (hfit : LayoutFits T b) {fs : Files} {op : FsOp}
    (hquery : op.IsQuery) (hvalid : op.Valid fs) :
    ∃ r, ∀ m, MachineInv T b m fs → ∃ m', m.step op = some (r, m') := by
  cases op with
  | find name =>
    refine ⟨.inode ((inodeIdOf fs.names name).map (ofId (layout T b))), fun m h => ?_⟩
    obtain ⟨s', hstep, -⟩ := step_find hfit h name
    exact ⟨_, hstep⟩
  | ls =>
    refine ⟨.names fs.names, fun m h => ?_⟩
    obtain ⟨s', hstep, -⟩ := step_ls hfit h
    exact ⟨_, hstep⟩
  | read i off buf =>
    have hf := getElem?_eq_getElem hvalid.1
    refine ⟨.bytes (readBytes (fs.get ⟨i, hvalid.1⟩).2 off buf), fun m h => ?_⟩
    obtain ⟨s', hstep, -⟩ := step_read hfit h hf hvalid.2.1 hvalid.2.2
    exact ⟨_, hstep⟩
  | create name => exact hquery.elim
  | write i off buf => exact hquery.elim
  | clear i => exact hquery.elim

/-- The device holds the blocks, so that `open` on it with a fresh cache finds the same file
system. -/
theorem ContentsInv.reopen {T b : UInt32} {m : Machine} (h : ContentsInv T b m contents) :
    ∃ cache, EasyFileSystem.openEfs.exec cacheBackend (CacheState.init m.cache.dev) =
        some (m.efs, cache) ∧ Holds cache m.cache.content := by
  have hdev := h.holds.dev_eq
  have hinit : Holds (CacheState.init m.cache.dev) m.cache.content := by
    have hrep := represents_init m.cache.dev
    rw [hdev] at hrep ⊢
    exact ⟨hrep, hrep.flushed_iff.mpr fun _ => rfl⟩
  rw [h.efs]
  exact hinit.exec_readOnly (run_openEfs (by decide) h.inv)

/-- **The device determines the file system.**  In every state of a run,
`EasyFileSystem::open` on the device with an empty cache returns the file system value of the
running instance, which is the one that `create` computed, and on the reopened file system the
root directory, the file contents and the answer to every query are the same. -/
theorem device_determines_files {T b : UInt32} (hfit : LayoutFits T b) (dev : Nat → Block)
    {m : Machine} {fs : Files} (hm : Reaches T b dev m fs) :
    m.efs = EasyFileSystem.layout T b ∧
    ∃ cache, EasyFileSystem.openEfs.exec cacheBackend (CacheState.init m.cache.dev) =
        some (m.efs, cache) ∧
      Machine.directory { m with cache := cache } = m.directory ∧
      Machine.contents { m with cache := cache } = m.contents ∧
      ∀ op : FsOp, op.IsQuery → op.Valid fs → ∃ r m₁ m₂, m.step op = some (r, m₁) ∧
        Machine.step { m with cache := cache } op = some (r, m₂) := by
  have h := hm.machineInv hfit
  obtain ⟨cache, hexec, hholds⟩ := h.contentsInv.reopen
  have h' := h.next_readOnly hholds
  refine ⟨h.efs, cache, hexec, ?_, ?_, ?_⟩
  · rw [h'.directory_eq, h.directory_eq]
  · rw [h'.contents_eq, h.contents_eq]
  · intro op hquery hvalid
    obtain ⟨r, hr⟩ := step_query hfit hquery hvalid
    obtain ⟨m₁, hm₁⟩ := hr m h
    obtain ⟨m₂, hm₂⟩ := hr _ h'
    exact ⟨r, m₁, m₂, hm₁, hm₂⟩

/-- After the creation of one file, the reopened file system shows one empty file. -/
theorem device_determines_files_oneFile :
    ∃ m cache, Reaches 4096 1 (fun _ => Block.zero) m [("a", [])] ∧
      EasyFileSystem.openEfs.exec cacheBackend (CacheState.init m.cache.dev) =
        some (m.efs, cache) ∧ Machine.contents { m with cache := cache } = [[]] := by
  obtain ⟨m, hm⟩ := exists_reaches_oneFile
  obtain ⟨-, cache, hexec, -, hcontents, -⟩ :=
    device_determines_files layoutFits_small (fun _ => Block.zero) hm
  refine ⟨m, cache, hm, hexec, ?_⟩
  rw [hcontents, (hm.machineInv layoutFits_small).contents_eq]
  rfl

/-- The device determines the file system after calls on any inodes in hand, with any names and
buffers: the reopened file system shows the same bytes, and a query on one of the inodes
answers, or stops, as on the running instance. -/
theorem inode_runs_device_determines {T b : UInt32} (hfit : LayoutFits T b) (dev : Nat → Block)
    {m : Machine} (hm : InodeReaches T b dev m contents) :
    m.efs = layout T b ∧
    ∃ cache, EasyFileSystem.openEfs.exec cacheBackend (CacheState.init m.cache.dev) =
        some (m.efs, cache) ∧
      (∀ inode ∈ m.inodes, Machine.contentOf { m with cache := cache } inode =
        m.contentOf inode) ∧
      ∀ inode ∈ m.inodes, ∀ call : InodeCall, call.IsQuery → call.Valid →
        (Machine.call { m with cache := cache } inode call).map Prod.fst =
          (m.call inode call).map Prod.fst := by
  have h := hm.contentsInv hfit
  obtain ⟨cache, hexec, hholds⟩ := h.reopen
  refine ⟨h.efs, cache, hexec, ?_, ?_⟩
  · intro inode hinode
    rw [Machine.contentOf, Machine.contentOf, hholds.content_eq]
  · intro inode hinode call hquery hvalid
    obtain ⟨k, hk⟩ := mem_iff_getElem?.mp hinode
    obtain ⟨c, hc, rfl⟩ := h.of_getElem_inodes hk
    rcases call_query hfit h.inv hc hquery hvalid with ⟨r, hr⟩ | hnone
    · obtain ⟨s₁, hcall₁, -⟩ := hr m h.efs h.holds
      obtain ⟨s₂, hcall₂, -⟩ := hr { m with cache := cache } h.efs hholds
      rw [hcall₁, hcall₂]
      rfl
    · rw [hnone m h.efs h.holds, hnone { m with cache := cache } h.efs hholds]

theorem inode_runs_device_determines_oneFile :
    ∃ m cache, InodeReaches 4096 1 (fun _ => Block.zero) m (Files.contents [("a", [])]) ∧
      EasyFileSystem.openEfs.exec cacheBackend (CacheState.init m.cache.dev) =
        some (m.efs, cache) := by
  obtain ⟨m, hm, -⟩ := exists_inodeReaches_oneFile
  obtain ⟨-, cache, hexec, -⟩ := inode_runs_device_determines layoutFits_small _ hm
  exact ⟨m, cache, hm, hexec⟩

end RCore.EasyFs
