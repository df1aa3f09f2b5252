import RCore.EasyFs.CacheRuns
import RCore.EasyFs.Mkfs

/-!
# The file system on the block cache

`Machine` is the running system: the file system value, the block cache with its
device, and the handles that `create` has returned.  Its steps are calls of the
inode methods, executed on the cache.  `Files` is what a user of the file system
sees, a list of named byte lists, with the same calls.  `MachineInv` ties the two
together; every step keeps it.
-/

namespace RCore.EasyFs

open RCore.Lib.LockedStore List Option UInt32 Inode CacheState
open EasyFileSystem (layout superBlock)

variable {p : FsProg α} {s' : CacheState} {name : String}

/-! ## The running system -/

/-- A call of an inode method; files are named by the order of their creation. -/
inductive FsOp where
  | create (name : String)
  | find (name : String)
  | ls
  | write (i off : Nat) (buf : List UInt8)
  | read (i off : Nat) (buf : List UInt8)
  | clear (i : Nat)

/-- What a call returns. -/
inductive FsResult where
  | inode (r : Option Inode)
  | names (v : List String)
  | size (n : Nat)
  | bytes (r : Nat × List UInt8)
  | unit

/-- The block a read through the cache would return. -/
def CacheState.content (s : CacheState) (id : Nat) : Block :=
  match s.queue.find? fun p => p.1 == id with
  | some p => (s.heap p.2).cache
  | none => s.dev id

structure Machine where
  efs : EasyFileSystem
  cache : CacheState
  /-- The names and handles for which `create` succeeded, in order. -/
  files : List (String × Inode)

namespace Machine

/-- `EasyFileSystem::create` on a device, with an empty cache. -/
def create (totalBlocks inodeBitmapBlocks : UInt32) (dev : Nat → Block) : Option Machine := do
  let (efs, cache) ← (EasyFileSystem.create totalBlocks inodeBitmapBlocks).exec cacheBackend
    (CacheState.init dev)
  some { efs := efs, cache := cache, files := [] }

def step (m : Machine) : FsOp → Option (FsResult × Machine)
  | .create name => do
      let (r, cache) ← ((Inode.rootInode m.efs).create m.efs name).exec cacheBackend m.cache
      let files := match r with
        | some inode => m.files ++ [(name, inode)]
        | none => m.files
      some (.inode r, { m with cache := cache, files := files })
  | .find name => do
      let (r, cache) ← ((Inode.rootInode m.efs).find m.efs name).exec cacheBackend m.cache
      some (.inode r, { m with cache := cache })
  | .ls => do
      let (v, cache) ← (Inode.rootInode m.efs).ls.exec cacheBackend m.cache
      some (.names v, { m with cache := cache })
  | .write i off buf => do
      let (_, inode) ← m.files[i]?
      let (n, cache) ← (inode.writeAt m.efs off buf).exec cacheBackend m.cache
      some (.size n, { m with cache := cache })
  | .read i off buf => do
      let (_, inode) ← m.files[i]?
      let (r, cache) ← (inode.readAt off buf).exec cacheBackend m.cache
      some (.bytes r, { m with cache := cache })
  | .clear i => do
      let (_, inode) ← m.files[i]?
      let ((), cache) ← (inode.clear m.efs).exec cacheBackend m.cache
      some (.unit, { m with cache := cache })

/-- The bytes of the file behind a handle. -/
def contentOf (m : Machine) (inode : Inode) : List UInt8 :=
  let diskInode := DiskInode.ofBlock (m.cache.content inode.blockId) inode.blockOffset
  (List.range diskInode.size.toNat).map (fileByte diskInode m.cache.content)

/-- The bytes of all created files. -/
def contents (m : Machine) : List (List UInt8) := m.files.map fun f => m.contentOf f.2

/-- The bytes of the root directory. -/
def directory (m : Machine) : List UInt8 := m.contentOf (Inode.rootInode m.efs)

end Machine

/-! ## The user's view -/

/-- Named byte lists in creation order. -/
abbrev Files := List (String × List UInt8)

namespace Files

def names (fs : Files) : List String := fs.map Prod.fst

/-- The contents of the directory and of all files. -/
def contents (fs : Files) : List (List UInt8) := dirBytes fs.names :: fs.map Prod.snd

def step (fs : Files) : FsOp → Files
  | .create name => if name ∈ fs.names then fs else fs ++ [(name, [])]
  | .write i off buf => fs.modify i fun f => (f.1, writeBytes f.2 off buf)
  | .clear i => fs.modify i fun f => (f.1, [])
  | .find _ | .ls | .read _ _ _ => fs

/-- The files fit into a file system made with these arguments: inodes, sizes and blocks. -/
structure Fits (totalBlocks inodeBitmapBlocks : UInt32) (fs : Files) : Prop where
  inodes : fs.length + 1 ≤ (EasyFileSystem.layout totalBlocks inodeBitmapBlocks).inodeBitmap.maximum
  sizes : ∀ c ∈ fs.contents, c.length ≤ maxFileSize
  blocks : blocksUsed fs.contents ≤
    (EasyFileSystem.superBlock totalBlocks inodeBitmapBlocks).dataAreaBlocks.toNat

end Files

/-- The arguments of a call are such as its callers promise: names fit into an entry, files
exist, written buffers are not empty, and offsets and buffers are of machine size. -/
def FsOp.Valid (fs : Files) : FsOp → Prop
  | .create name => NameOk name
  | .find _ | .ls => True
  | .write i _ buf => i < fs.length ∧ buf ≠ []
  | .read i off buf => i < fs.length ∧ off < 2 ^ 64 ∧ buf.length < 2 ^ 63
  | .clear i => i < fs.length

/-- The call may be made, and what it leaves fits. -/
def Allowed (totalBlocks inodeBitmapBlocks : UInt32) (fs : Files) (op : FsOp) : Prop :=
  op.Valid fs ∧ (fs.step op).Fits totalBlocks inodeBitmapBlocks

/-- The states of runs of allowed calls that begin with `EasyFileSystem::create`, together
with the user's view of them. -/
inductive Reaches (totalBlocks inodeBitmapBlocks : UInt32) (dev : Nat → Block) :
    Machine → Files → Prop where
  | start {m : Machine} (hm : Machine.create totalBlocks inodeBitmapBlocks dev = some m) :
      Reaches totalBlocks inodeBitmapBlocks dev m []
  | step {m m' : Machine} {fs : Files} {op : FsOp} {r : FsResult}
      (hm : Reaches totalBlocks inodeBitmapBlocks dev m fs)
      (hop : Allowed totalBlocks inodeBitmapBlocks fs op) (hstep : m.step op = some (r, m')) :
      Reaches totalBlocks inodeBitmapBlocks dev m' (fs.step op)

/-! ## From the plain store to the cache -/

variable {s : CacheState}

theorem Represents.content_eq {v : View Block} (h : Represents s v) : s.content = v.blk := by
  funext id
  unfold content
  cases hfind : s.queue.find? fun p => p.1 == id with
  | some p =>
    have hp : p ∈ s.queue := mem_of_find?_eq_some hfind
    have hid : p.1 = id := by simpa using find?_some hfind
    simp only
    rw [h.1.cached p hp, hid]
  | none =>
    apply h.1.uncached
    intro hmem
    obtain ⟨p, hp, rfl⟩ := mem_map.mp hmem
    simpa using find?_eq_none.mp hfind p hp

/-- The blocks `held` of the cache are in hand, newest first, and no others. -/
def CacheState.Holding (s : CacheState) (held : List Nat) : Prop := Represents s ⟨s.content, held⟩

theorem Represents.holding {v : View Block} (h : Represents s v) : s.Holding v.held := by
  rw [Holding, h.content_eq]
  exact h

/-- A cache that holds the blocks `blk`, with all of them on the device. -/
def Holds (s : CacheState) (blk : Nat → Block) : Prop := Represents s ⟨blk, []⟩ ∧ Flushed s

theorem Holds.content_eq {blk : Nat → Block} (h : Holds s blk) :
    s.content = blk := h.1.content_eq

theorem Holds.dev_eq {blk : Nat → Block} (h : Holds s blk) : s.dev = blk :=
  funext (h.1.flushed_iff.mp h.2)

section Exec

variable {α γ : Type} {s : CacheState} {blk blk' : Nat → Block} {a : α}

theorem CacheState.Holding.exec_of_run {held held' : List Nat} (h : s.Holding held) {ro : Bool}
    {p : FsProg α} (hrun : p.run blockCacheSize ro ⟨s.content, held⟩ = some (a, ⟨blk', held'⟩)) :
    ∃ s', p.exec cacheBackend s = some (a, s') ∧ s'.Holding held' ∧ s'.content = blk' := by
  obtain ⟨s', hexec, hrep, -⟩ := cache_simulation.exec_of_run h hrun
  exact ⟨s', hexec, hrep.holding, hrep.content_eq⟩

theorem Holds.exec_readOnly (h : Holds s blk) {p : FsProg α}
    (hrun : p.run blockCacheSize true ⟨blk, []⟩ = some (a, ⟨blk', []⟩)) :
    ∃ s', p.exec cacheBackend s = some (a, s') ∧ Holds s' blk' := by
  obtain ⟨s', hexec, hrep, hclean⟩ := cache_simulation.exec_of_run h.1 hrun
  exact ⟨s', hexec, hrep, hclean rfl h.2⟩

/-- A program that ends with `block_cache_sync_all`. -/
theorem exec_synced {p : FsProg α} (f : α → γ) (h : Represents s ⟨blk, []⟩)
    (hrun : p.run blockCacheSize false ⟨blk, []⟩ = some (a, ⟨blk', []⟩)) :
    ∃ s', (p >>= fun a => Prog.syncAll (pure (f a))).exec cacheBackend s = some (f a, s') ∧
      Holds s' blk' := by
  obtain ⟨s', hexec, hrep, hclean⟩ := cache_simulation.exec_syncAll_clean (f := f) h hrun rfl
  exact ⟨s', hexec, hrep, hclean⟩

end Exec

/-! ## The invariant of runs -/

/-- The handle that `create` returns for the file created as number `k`. -/
def handle (totalBlocks inodeBitmapBlocks : UInt32) (k : Nat) : Inode :=
  Inode.ofId (EasyFileSystem.layout totalBlocks inodeBitmapBlocks) (UInt32.ofNat (k + 1))

/-- The machine stands for the files `fs`. -/
structure MachineInv (T b : UInt32) (m : Machine) (fs : Files) : Prop where
  efs : m.efs = EasyFileSystem.layout T b
  files : m.files = fs.mapIdx fun k f => (f.1, handle T b k)
  holds : Holds m.cache m.cache.content
  inv : FsInv (EasyFileSystem.layout T b) b.toNat
    (EasyFileSystem.superBlock T b).dataAreaBlocks.toNat (EasyFileSystem.superBlock T b)
    m.cache.content fs.contents
  names : ∀ n ∈ fs.names, NameOk n
  nodup : fs.names.Nodup

namespace Files

@[simp] theorem length_contents (fs : Files) : fs.contents.length = fs.length + 1 := by
  simp [contents]

@[simp] theorem length_names (fs : Files) : fs.names.length = fs.length := by
  simp [names]

theorem contents_zero (fs : Files) : fs.contents[0]? = some (dirBytes fs.names) := rfl

theorem contents_succ (fs : Files) (i : Nat) :
    fs.contents[i + 1]? = (fs[i]?).map Prod.snd := by
  simp [contents]

variable {fs : Files} {i : Nat} {f : String × List UInt8}

theorem names_modify (fs : Files) (i : Nat) (φ : List UInt8 → List UInt8) :
    names (fs.modify i fun f => (f.1, φ f.2)) = fs.names := by
  apply ext_getElem?
  intro k
  simp only [names, getElem?_map, getElem?_modify]
  cases fs[k]? with
  | none => rfl
  | some g =>
    simp only [map_some]
    split <;> rfl

theorem contents_modify (h : fs[i]? = some f) (φ : List UInt8 → List UInt8) :
    contents (fs.modify i fun f => (f.1, φ f.2)) = fs.contents.set (i + 1) (φ f.2) := by
  obtain ⟨hlt, hf⟩ := List.getElem?_eq_some_iff.mp h
  rw [contents, names_modify, contents, List.set_cons_succ]
  congr 1
  apply ext_getElem?
  intro k
  rw [getElem?_map, getElem?_modify, getElem?_set]
  by_cases hik : i = k
  · subst hik
    simp [hlt, hf]
  · simp [hik]

theorem mapIdx_modify {β : Type} (fs : Files) (i : Nat) (φ : List UInt8 → List UInt8)
    (g : Nat → String → β) :
    (fs.modify i fun f => (f.1, φ f.2)).mapIdx (fun k f => (f.1, g k f.1)) =
      fs.mapIdx fun k f => (f.1, g k f.1) := by
  apply ext_getElem?
  intro k
  simp only [getElem?_mapIdx, getElem?_modify]
  cases fs[k]? with
  | none => rfl
  | some x =>
    simp only [map_some]
    split <;> rfl

end Files

namespace MachineInv

variable {T b : UInt32} {m : Machine} {fs : Files}

theorem getElem_files (h : MachineInv T b m fs) {i : Nat} {f : String × List UInt8}
    (hf : fs[i]? = some f) : m.files[i]? = some (f.1, handle T b i) := by
  simp [h.files, hf]

/-- The next state: a cache that holds blocks `blk'` of a file system with files `fs'`. -/
theorem next (h : MachineInv T b m fs) {blk' : Nat → Block} {fs' : Files}
    {files' : List (String × Inode)} (hfiles : files' = fs'.mapIdx fun k f => (f.1, handle T b k))
    (hholds : Holds s' blk')
    (hinv : LaidOut T b blk' fs'.contents) (hnames : ∀ n ∈ fs'.names, NameOk n)
    (hnodup : fs'.names.Nodup) : MachineInv T b { m with cache := s', files := files' } fs' := by
  have hcontent := hholds.content_eq
  exact ⟨h.efs, hfiles, hcontent.symm ▸ hholds, hcontent.symm ▸ hinv, hnames, hnodup⟩

theorem next_readOnly (h : MachineInv T b m fs) (hholds : Holds s' m.cache.content) :
    MachineInv T b { m with cache := s' } fs :=
  h.next h.files hholds h.inv h.names h.nodup

/-- A step that changes the bytes of file `i`. -/
theorem next_modify (h : MachineInv T b m fs) {i : Nat} {f : String × List UInt8}
    (hf : fs[i]? = some f) (φ : List UInt8 → List UInt8) {blk' : Nat → Block}
    (hholds : Holds s' blk')
    (hinv : LaidOut T b blk' (fs.contents.set (i + 1) (φ f.2))) :
    MachineInv T b { m with cache := s' } (fs.modify i fun f => (f.1, φ f.2)) := by
  have hnames := Files.names_modify fs i φ
  rw [← Files.contents_modify hf φ] at hinv
  refine h.next ?_ hholds hinv (hnames ▸ h.names) (hnames ▸ h.nodup)
  rw [h.files]
  exact (Files.mapIdx_modify fs i φ fun k _ => handle T b k).symm

end MachineInv

/-! ## Steps -/

section Steps

variable {T b : UInt32} {m : Machine} {fs : Files}

theorem blockCacheSize_gt : 2 < blockCacheSize := by decide

/-- `EasyFileSystem::create` returns a machine without files. -/
theorem machineInv_create (hfit : LayoutFits T b) (dev : Nat → Block) :
    ∃ m, Machine.create T b dev = some m ∧ MachineInv T b m [] := by
  obtain ⟨blk', hrun, hinv, -⟩ := run_format (show 0 < blockCacheSize by decide) hfit dev
  obtain ⟨s', hexec, hholds⟩ := exec_synced id (represents_init dev) hrun
  have hcontent := hholds.content_eq
  refine ⟨⟨layout T b, s', []⟩, ?_, rfl, rfl, hcontent.symm ▸ hholds,
    hcontent.symm ▸ hinv, by simp [Files.names], by simp [Files.names]⟩
  have hcreate : (EasyFileSystem.create T b).exec cacheBackend (init dev) =
      some (layout T b, s') := hexec
  rw [Machine.create, hcreate]
  rfl

theorem step_find (hfit : LayoutFits T b) (h : MachineInv T b m fs) (name : String) :
    ∃ s', m.step (.find name) = some (.inode ((inodeIdOf fs.names name).map
        (ofId (layout T b))), { m with cache := s' }) ∧
      Holds s' m.cache.content := by
  obtain ⟨s', hexec, hholds⟩ := h.holds.exec_readOnly
    (run_find h.inv hfit.geometry (by decide) fs.contents_zero h.names name)
  refine ⟨s', ?_, hholds⟩
  rw [Machine.step, h.efs, hexec]
  rfl

theorem step_ls (hfit : LayoutFits T b) (h : MachineInv T b m fs) :
    ∃ s', m.step .ls = some (.names fs.names, { m with cache := s' }) ∧
      Holds s' m.cache.content := by
  obtain ⟨s', hexec, hholds⟩ := h.holds.exec_readOnly
    (run_ls h.inv hfit.geometry (by decide) fs.contents_zero h.names)
  refine ⟨s', ?_, hholds⟩
  rw [Machine.step, h.efs, hexec]
  rfl

variable {f : String × List UInt8}

section

variable (hfit : LayoutFits T b) (h : MachineInv T b m fs) {i : Nat} (hf : fs[i]? = some f)
include hfit h hf

theorem step_read {off : Nat} {buf : List UInt8} (hoff : off < 2 ^ 64)
    (hbuf : buf.length < 2 ^ 63) :
    ∃ s', m.step (.read i off buf) = some (.bytes (readBytes f.2 off buf),
        { m with cache := s' }) ∧ Holds s' m.cache.content := by
  have hc : fs.contents[i + 1]? = some f.2 := by rw [fs.contents_succ, hf]; rfl
  obtain ⟨s', hexec, hholds⟩ := h.holds.exec_readOnly
    (run_read h.inv hfit.geometry (by decide) hc hoff hbuf)
  have hexec' : ((handle T b i).readAt off buf).exec cacheBackend m.cache =
      some (readBytes f.2 off buf, s') := hexec
  refine ⟨s', ?_, hholds⟩
  rw [Machine.step, h.getElem_files hf]
  simp [hexec']

theorem step_write {off : Nat} {buf : List UInt8} (hbuf : buf ≠ [])
    (hfits : Files.Fits T b (fs.step (.write i off buf))) :
    ∃ m', m.step (.write i off buf) = some (.size buf.length, m') ∧
      MachineInv T b m' (fs.step (.write i off buf)) ∧ m'.files = m.files := by
  have hc : fs.contents[i + 1]? = some f.2 := by rw [fs.contents_succ, hf]; rfl
  obtain ⟨hlt, -⟩ := List.getElem?_eq_some_iff.mp hc
  have hcontents := Files.contents_modify hf fun c => writeBytes c off buf
  have hblocks := hfits.blocks
  have hsizes := hfits.sizes
  rw [Files.step, hcontents] at hblocks hsizes
  obtain ⟨blk', hrun, hnew⟩ := run_write_renewed blockCacheSize_gt h.inv hfit.geometry hc
    (length_pos_of_ne_nil hbuf) (hsizes _ (mem_set hlt _)) hblocks
  obtain ⟨s', hexec, hholds⟩ := exec_synced id h.holds.1 hrun
  have hexec' : ((handle T b i).writeAt (layout T b) off buf).exec cacheBackend
      m.cache = some (buf.length, s') := hexec
  refine ⟨{ m with cache := s' }, ?_, h.next_modify hf (fun c => writeBytes c off buf) hholds
    hnew.inv, rfl⟩
  rw [Machine.step, h.getElem_files hf, h.efs]
  simp [hexec']

theorem step_clear :
    ∃ m', m.step (.clear i) = some (.unit, m') ∧ MachineInv T b m' (fs.step (.clear i)) ∧
      m'.files = m.files := by
  have hc : fs.contents[i + 1]? = some f.2 := by rw [fs.contents_succ, hf]; rfl
  obtain ⟨blk', hrun, hnew⟩ := run_clear_renewed blockCacheSize_gt h.inv hfit.geometry hc
  obtain ⟨s', hexec, hholds⟩ := exec_synced id h.holds.1 hrun
  have hexec' : ((handle T b i).clear (layout T b)).exec cacheBackend
      m.cache = some ((), s') := hexec
  refine ⟨{ m with cache := s' }, ?_, h.next_modify hf (fun _ => []) hholds hnew.inv, rfl⟩
  rw [Machine.step, h.getElem_files hf, h.efs]
  simp [hexec']

end

theorem step_create_existing (hfit : LayoutFits T b) (h : MachineInv T b m fs) {name : String}
    (hmem : name ∈ fs.names) :
    ∃ s', m.step (.create name) = some (.inode none, { m with cache := s' }) ∧
      Holds s' m.cache.content := by
  obtain ⟨s', hexec, hholds⟩ := h.holds.exec_readOnly
    (run_create_existing h.inv hfit.geometry (by decide) fs.contents_zero h.names hmem)
  refine ⟨s', ?_, hholds⟩
  rw [Machine.step, h.efs, hexec]
  rfl

theorem contents_create (fs : Files) (name : String) :
    Files.contents (fs ++ [(name, [])]) =
      (fs.contents ++ [[]]).set 0 (dirBytes (fs.names ++ [name])) := by
  simp [Files.contents, Files.names]

theorem addEntry_files (fs : Files) (name : String) :
    addEntry (dirBytes fs.names) name (ofNat fs.contents.length) =
      dirBytes (fs.names ++ [name]) := by
  rw [Files.length_contents, ← Files.length_names, addEntry_dirBytes]

theorem Files.Fits.room (hfits : Files.Fits T b (fs ++ [(name, [])])) :
    fs.contents.length < 4096 * b.toNat ∧ fs.contents.length + 1 < 2 ^ 32 ∧
    (addEntry (dirBytes fs.names) name (ofNat fs.contents.length)).length ≤ 8468480 ∧
    blocksUsed ((fs.contents ++ [[]]).set 0 (addEntry (dirBytes fs.names) name
      (ofNat fs.contents.length))) ≤
        (superBlock T b).dataAreaBlocks.toNat := by
  have hinodes := hfits.inodes
  have hblocks := hfits.blocks
  have hdir := hfits.sizes (dirBytes (fs.names ++ [name])) (by simp [Files.contents, Files.names])
  have hmax : (layout T b).inodeBitmap.maximum = b.toNat * 4096 := rfl
  rw [hmax, length_append, length_singleton] at hinodes
  rw [contents_create] at hblocks
  rw [addEntry_files]
  refine ⟨?_, ?_, hdir, hblocks⟩
  · rw [Files.length_contents]
    omega
  · rw [maxFileSize_eq, length_dirBytes, length_append, length_singleton,
      Files.length_names] at hdir
    rw [Files.length_contents]
    omega

section

variable (hfit : LayoutFits T b) (h : MachineInv T b m fs)
include hfit h

/-- `create` of a name that is not there goes on after the search. -/
theorem exec_create_absent {name : String} (hnew : name ∉ fs.names) :
    ∃ s₁, Holds s₁ m.cache.content ∧ ((rootInode (layout T b)).create
      (layout T b) name).exec cacheBackend m.cache = (do
        let inode ← (rootInode (layout T b)).createNew (layout T b) name
        Prog.syncAll (pure (some inode)) : FsProg (Option Inode)).exec cacheBackend s₁ := by
  obtain ⟨s₁, hexec, hholds⟩ := h.holds.exec_readOnly
    (run_searchForCreate h.inv hfit.geometry (by decide) fs.contents_zero h.names name)
  have hnone : (inodeIdOf fs.names name).isSome = false := by
    rw [inodeIdOf, isSome_map, ← Bool.not_eq_true, isSome_idxOf?]
    exact hnew
  refine ⟨s₁, hholds, ?_⟩
  rw [create, Prog.exec_bind, hexec, bind_some, hnone, if_neg Bool.false_ne_true]

theorem step_create_stored (hlen : (strBytes name).length ≤ nameLengthLimit + 1)
    (hnew : name ∉ fs.names) (hfits : Files.Fits T b (fs ++ [(name, [])])) :
    ∃ s' blk', m.step (.create name) = some (.inode (some (handle T b fs.length)),
        { m with cache := s', files := m.files ++ [(name, handle T b fs.length)] }) ∧
      Holds s' blk' ∧
      LaidOut T b blk' (Files.contents (fs ++ [(name, [])])) := by
  obtain ⟨hcount, hsmall, hdir, hblocks⟩ := hfits.room
  obtain ⟨blk', hrun, hnew'⟩ := run_createNew blockCacheSize_gt h.inv hfit.geometry
    fs.contents_zero hcount hsmall hdir hblocks hlen
  obtain ⟨s₁, hholds₁, hcreate⟩ := exec_create_absent hfit h hnew
  obtain ⟨s', hexec, hholds⟩ := exec_synced some hholds₁.1 hrun
  rw [Files.length_contents] at hexec
  refine ⟨s', blk', ?_, hholds, ?_⟩
  · rw [Machine.step, h.efs, hcreate, hexec]
    rfl
  · rw [contents_create, ← addEntry_files]
    exact hnew'.inv

theorem step_create_new (hname : NameOk name) (hnew : name ∉ fs.names)
    (hfits : Files.Fits T b (fs ++ [(name, [])])) :
    ∃ m', m.step (.create name) = some (.inode (some (handle T b fs.length)), m') ∧
      MachineInv T b m' (fs ++ [(name, [])]) ∧
      m'.files = m.files ++ [(name, handle T b fs.length)] := by
  obtain ⟨s', blk', hstep, hholds, hinv⟩ := step_create_stored hfit h
    (hname.length_le.trans (by decide)) hnew hfits
  have hfiles : m.files ++ [(name, handle T b fs.length)] =
      (fs ++ [(name, [])] : Files).mapIdx fun k f => (f.1, handle T b k) := by
    rw [h.files, mapIdx_append]
    simp
  refine ⟨_, hstep, h.next hfiles hholds hinv ?_ ?_, rfl⟩
  · intro n hn
    rw [Files.names, map_append, mem_append] at hn
    rcases hn with hn | hn
    · exact h.names n hn
    · rw [map_singleton, mem_singleton] at hn
      rw [hn]
      exact hname
  · rw [Files.names, map_append, nodup_append]
    refine ⟨h.nodup, by simp, ?_⟩
    intro n hn n' hn' he
    rw [map_singleton, mem_singleton] at hn'
    rw [he, hn'] at hn
    exact hnew hn

/-- Every allowed call returns, and leads to a machine that stands for the new files. -/
theorem step_machineInv {op : FsOp} (hop : Allowed T b fs op) :
    ∃ r m', m.step op = some (r, m') ∧ MachineInv T b m' (fs.step op) := by
  cases op with
  | create name =>
    by_cases hmem : name ∈ fs.names
    · obtain ⟨s', hstep, hholds⟩ := step_create_existing hfit h hmem
      refine ⟨_, _, hstep, ?_⟩
      rw [Files.step, if_pos hmem]
      exact h.next_readOnly hholds
    · have hfits := hop.2
      rw [Files.step, if_neg hmem] at hfits ⊢
      obtain ⟨m', hstep, hinv, -⟩ := step_create_new hfit h hop.1 hmem hfits
      exact ⟨_, m', hstep, hinv⟩
  | find name =>
    obtain ⟨s', hstep, hholds⟩ := step_find hfit h name
    exact ⟨_, _, hstep, h.next_readOnly hholds⟩
  | ls =>
    obtain ⟨s', hstep, hholds⟩ := step_ls hfit h
    exact ⟨_, _, hstep, h.next_readOnly hholds⟩
  | write i off buf =>
    obtain ⟨m', hstep, hinv, -⟩ := step_write hfit h (getElem?_eq_getElem hop.1.1) hop.1.2 hop.2
    exact ⟨_, m', hstep, hinv⟩
  | read i off buf =>
    obtain ⟨s', hstep, hholds⟩ := step_read hfit h (getElem?_eq_getElem hop.1.1) hop.1.2.1 hop.1.2.2
    exact ⟨_, _, hstep, h.next_readOnly hholds⟩
  | clear i =>
    obtain ⟨m', hstep, hinv, -⟩ := step_clear hfit h (getElem?_eq_getElem hop.1)
    exact ⟨_, m', hstep, hinv⟩

end

theorem Reaches.machineInv (hfit : LayoutFits T b) {dev : Nat → Block}
    (h : Reaches T b dev m fs) : MachineInv T b m fs := by
  induction h with
  | start hm =>
    obtain ⟨m', hm', hinv⟩ := machineInv_create hfit dev
    rw [hm', Option.some.injEq] at hm
    exact hm ▸ hinv
  | step _ hop hstep ih =>
    obtain ⟨r, m', hstep', hinv⟩ := step_machineInv hfit ih hop
    rw [hstep', Option.some.injEq, Prod.mk.injEq] at hstep
    exact hstep.2 ▸ hinv

end Steps

end RCore.EasyFs
