import RCore.EasyFs.FsProperties

/-!
# Locks of the block cache

A call locks cache entries while it holds the locks of others: the inode block, an index
block and a second-level index block, a data block or a block of a bitmap.  The plain
store refuses a block that is held already, and the runs of the calls on it succeed with
three blocks at once, so on the cache no call waits for its own lock.
-/

namespace RCore.EasyFs

open RCore.Lib.LockedStore List Prog UInt32 Inode
open EasyFileSystem (layout)

/-- Along the whole call, no entry is requested that the call holds locked, at most three
are locked at once, and the cache has an entry for every request. -/
def InodeCall.Guarded (m : Machine) (inode : Inode) : InodeCall → Prop
  | .create name => (inode.create m.efs name).Guarded cacheBackend 3 m.cache []
  | .find name => (inode.find m.efs name).Guarded cacheBackend 3 m.cache []
  | .ls => inode.ls.Guarded cacheBackend 3 m.cache []
  | .write off buf => (inode.writeAt m.efs off buf).Guarded cacheBackend 3 m.cache []
  | .read off buf => (inode.readAt off buf).Guarded cacheBackend 3 m.cache []
  | .clear => (inode.clear m.efs).Guarded cacheBackend 3 m.cache []

/-- There is room for what the call adds; buffers to be written are not empty. -/
def InodeCall.InCapacity (T b : UInt32) (m : Machine) (contents : List (List UInt8)) (k : Nat)
    (inode : Inode) : InodeCall → Prop
  | .create name =>
      (∃ found m', m.call inode (.find name) = some (.inode (some found), m')) ∨
        ContentsFit T b ((contents ++ [[]]).modify k fun root =>
          addEntry root name (UInt32.ofNat contents.length))
  | .write off buf => buf ≠ [] ∧ ContentsFit T b (contents.modify k fun c => writeBytes c off buf)
  | .find _ | .ls | .read _ _ | .clear => True

section Guarded

variable {α γ : Type} {s : CacheState} {blk : Nat → Block}

theorem Holds.guarded_of_run (h : Holds s blk) {ro : Bool} {p : FsProg α} {r : α × View Block}
    (hrun : p.run 3 ro ⟨blk, []⟩ = some r) : p.Guarded cacheBackend 3 s [] :=
  cache_simulation.guarded_of_run (by decide) h.1 hrun

theorem Holds.guarded_of_panics (h : Holds s blk) {p : FsProg α}
    (hpanic : p.Panics 3 ⟨blk, []⟩) : p.Guarded cacheBackend 3 s [] :=
  cache_simulation.guarded_of_panics (by decide) h.1 hpanic

theorem Holds.guarded_of_stops (h : Holds s blk) {p : FsProg α} (hstops : p.Stops 3 ⟨blk, []⟩) :
    p.Guarded cacheBackend 3 s [] := by
  rcases hstops with ⟨a, hrun⟩ | hpanic
  · exact h.guarded_of_run hrun
  · exact h.guarded_of_panics hpanic

/-- A program that ends with `block_cache_sync_all`. -/
theorem run_synced {p : FsProg α} (f : α → γ) {a : α} {blk' : Nat → Block}
    (hrun : p.run 3 false ⟨blk, []⟩ = some (a, ⟨blk', []⟩)) :
    (p >>= fun a => syncAll (pure (f a))).run 3 false ⟨blk, []⟩ =
      some (f a, ⟨blk', []⟩) := by
  rw [run_bind_some hrun]
  rfl

end Guarded

section Calls

variable {efs : EasyFileSystem} {n db d : Nat} {sb : SuperBlock} {blk : Nat → Block}
  {contents : List (List UInt8)} {k : Nat} {c : List UInt8} {cap : Nat}

/-- `find` and the search of `create` find the same, or the search panics. -/
theorem search_or_panics (h : FsInv efs n d sb blk contents) (hg : Geometry efs n db d)
    (hcap : 1 < cap) (hk : contents[k]? = some c) (name : String) :
    (∃ found, ((ofId efs (ofNat k)).find efs name).run cap true ⟨blk, []⟩ =
        some (found.map (ofId efs), ⟨blk, []⟩) ∧
      ((ofId efs (ofNat k)).searchForCreate name).run cap true ⟨blk, []⟩ =
        some (found, ⟨blk, []⟩)) ∨
    ((ofId efs (ofNat k)).searchForCreate name).Panics cap ⟨blk, []⟩ := by
  obtain ⟨hlt, -⟩ := List.getElem?_eq_some_iff.mp hk
  have hcount := h.count
  have hpos : 0 < cap := by omega
  cases hdir : (efs.diskInode blk k).isDir with
  | false =>
    right
    refine panics_modifyFile h hg hlt hpos (panics_bind_left ?_ _)
    rw [searchBody, hdir]
    exact panics_bind_left panics_check_false _
  | true =>
    rcases stops_findInodeId h hg hcap hk (by omega : 1 + n + k / 4 < 1 + 1025 * n) name with
      ⟨found, hrun⟩ | hpanic
    · left
      refine ⟨found, run_readFile h hg hlt hpos ?_, run_putBack h hg hlt hpos ?_⟩
      · rw [run_bind_some hrun]
        rfl
      · rw [searchBody, hdir, run_bind_some (run_check_true _)]
        exact hrun
    · right
      refine panics_modifyFile h hg hlt hpos (panics_bind_left ?_ _)
      exact panics_check_bind hpanic

/-- The part of `create` after the search, if there is room for the new file and its entry. -/
theorem createNew_or_panics (h : FsInv efs n d sb blk contents) (hg : Geometry efs n db d)
    (hcap : 2 < cap) (hdir : contents[0]? = some c) (hcount : contents.length < 4096 * n)
    (hsmall : contents.length + 1 < 2 ^ 32) {name : String}
    (hbound : (addEntry c name (ofNat contents.length)).length ≤ 8468480)
    (hspace : blocksUsed
      ((contents ++ [[]]).set 0 (addEntry c name (ofNat contents.length))) ≤ d) :
    (∃ inode blk', ((rootInode efs).createNew efs name).run cap false ⟨blk, []⟩ =
        some (inode, ⟨blk', []⟩)) ∨
      ((rootInode efs).createNew efs name).Panics cap ⟨blk, []⟩ := by
  by_cases hname : (strBytes name).length ≤ nameLengthLimit + 1
  · obtain ⟨blk', hrun, -⟩ := run_createNew hcap h hg hdir hcount hsmall hbound hspace hname
    exact .inl ⟨_, blk', hrun⟩
  · exact .inr (panics_createNew hcap h hg hdir hcount hsmall hbound hspace hname)

end Calls

namespace ContentsInv

variable {T b : UInt32} {m : Machine} {contents : List (List UInt8)} {k : Nat} {c : List UInt8}
  (hfit : LayoutFits T b) (h : ContentsInv T b m contents) (hk : contents[k]? = some c)
include hfit h hk

theorem guarded_create {name : String}
    (hroom : InodeCall.InCapacity T b m contents k (ofId (layout T b) (ofNat k))
      (.create name)) :
    InodeCall.Guarded m (ofId (layout T b) (ofNat k))
      (.create name) := by
  have hg := hfit.geometry
  obtain ⟨hlt, -⟩ := List.getElem?_eq_some_iff.mp hk
  rw [InodeCall.Guarded, h.efs]
  by_cases hroot : k = 0
  · rcases search_or_panics h.inv hg (by decide : 1 < 3) hk name with
      ⟨found, hfind, hsearch⟩ | hpanic
    · have hsearch' := run_of_readOnly hsearch
      cases found with
      | some number =>
        have hrun : ((ofId (layout T b) (ofNat k)).create
            (layout T b) name).run 3 false ⟨m.cache.content, []⟩ =
            some (none, ⟨m.cache.content, []⟩) := by
          rw [create, run_bind_some hsearch']
          rfl
        exact h.holds.guarded_of_run hrun
      | none =>
        have hfits : ContentsFit T b ((contents ++ [[]]).set 0
            (addEntry c name (ofNat contents.length))) := by
          rcases hroom with ⟨i, m', hfound⟩ | hfits
          · obtain ⟨s', hexec, -⟩ := h.holds.exec_readOnly
              (run_mono (by decide : 3 ≤ blockCacheSize) hfind)
            rw [Machine.call, h.efs, hexec] at hfound
            cases hfound
          · have hzero : (contents ++ [[]])[k]? = some c := by
              rw [getElem?_append_left hlt, hk]
            rwa [modify_eq_set hzero, hroot] at hfits
        have hinodes := hfits.inodes
        have hnumbers := hfits.numbers
        have hmax : (layout T b).inodeBitmap.maximum = b.toNat * 4096 := rfl
        rw [length_set, length_append, length_singleton] at hinodes hnumbers
        rw [hmax] at hinodes
        subst hroot
        rcases createNew_or_panics h.inv hg (by decide : 2 < 3) hk (by omega) hnumbers
          (hfits.sizes _ (mem_set (by simp) _)) hfits.blocks with
          ⟨inode, blk', hrun⟩ | hpanic
        · have hrun' : ((ofId (layout T b) (ofNat 0)).create
              (layout T b) name).run 3 false ⟨m.cache.content, []⟩ =
              some (some inode, ⟨blk', []⟩) := by
            rw [create, run_bind_some hsearch']
            exact run_synced some hrun
          exact h.holds.guarded_of_run hrun'
        · refine h.holds.guarded_of_panics ?_
          rw [create]
          exact panics_bind_right hsearch' (panics_bind_left hpanic _)
    · exact h.holds.guarded_of_panics (panics_bind_left hpanic _)
  · exact h.holds.guarded_of_panics (panics_create h.inv hk (by decide) hroot name)

end ContentsInv

/-- **No call waits for a lock of its own.**  In every state that calls within the capacity
reach, on every inode in hand, every call within the capacity requests only cache entries
that it does not hold locked, holds at most three at once, and finds room for each in the
cache. -/
theorem calls_lock_apart {T b : UInt32} (hfit : LayoutFits T b) (dev : Nat → Block) {m : Machine}
    {contents : List (List UInt8)} (h : InodeReaches T b dev m contents) {k : Nat} {inode : Inode}
    (hk : m.inodes[k]? = some inode) (call : InodeCall) (hvalid : call.Valid)
    (hroom : call.InCapacity T b m contents k inode) : call.Guarded m inode := by
  have hinv := h.contentsInv hfit
  have hg := hfit.geometry
  obtain ⟨c, hc, rfl⟩ := hinv.of_getElem_inodes hk
  obtain ⟨hlt, -⟩ := List.getElem?_eq_some_iff.mp hc
  cases call with
  | create name => exact hinv.guarded_create hfit hc hroom
  | find name =>
    rw [InodeCall.Guarded, hinv.efs]
    exact hinv.holds.guarded_of_stops (stops_find hinv.inv hg (by decide) hc name)
  | ls => exact hinv.holds.guarded_of_stops (stops_ls hinv.inv hg (by decide) hc)
  | write off buf =>
    obtain ⟨hbuf, hfits⟩ := hroom
    rw [modify_eq_set hc] at hfits
    obtain ⟨blk', hrun, -⟩ := run_write_renewed (by decide : 2 < 3) hinv.inv hg hc
      (List.length_pos_of_ne_nil hbuf) (hfits.sizes _ (List.mem_set hlt _)) hfits.blocks
    rw [InodeCall.Guarded, hinv.efs]
    exact hinv.holds.guarded_of_run (run_synced id hrun)
  | read off buf =>
    have hrun : ((Inode.ofId (layout T b) (UInt32.ofNat k)).readAt off buf).run 3
        false ⟨m.cache.content, []⟩ = some (readBytes c off buf, ⟨m.cache.content, []⟩) :=
      run_read hinv.inv hg (by decide) hc hvalid.1 hvalid.2
    exact hinv.holds.guarded_of_run hrun
  | clear =>
    obtain ⟨blk', hrun, -⟩ := run_clear_renewed (by decide : 2 < 3) hinv.inv hg hc
    rw [InodeCall.Guarded, hinv.efs]
    exact hinv.holds.guarded_of_run (run_synced id hrun)

/-- With one file, the creation of another and a write to the first. -/
theorem calls_lock_apart_oneFile : ∃ m file,
    InodeReaches 4096 1 (fun _ => Block.zero) m (Files.contents [("a", [])]) ∧
      m.inodes[1]? = some file ∧
      InodeCall.Guarded m (Inode.rootInode m.efs) (.create "b") ∧
      InodeCall.Guarded m file (.write 5 [1, 2, 3]) := by
  obtain ⟨m, h, hfile⟩ := exists_inodeReaches_oneFile
  have hroot : m.inodes[0]? = some (Inode.rootInode m.efs) := rfl
  have hcreate : Files.Fits 4096 1 [("a", []), ("b", [])] :=
    ⟨by decide, by decide +kernel, by decide +kernel⟩
  have hwrite : Files.Fits 4096 1 [("a", [0, 0, 0, 0, 0, 1, 2, 3])] :=
    ⟨by decide, by decide +kernel, by decide +kernel⟩
  refine ⟨m, _, h, hfile, calls_lock_apart layoutFits_small _ h hroot _ trivial (.inr ?_),
    calls_lock_apart layoutFits_small _ h hfile _ trivial ⟨by simp, hwrite.contentsFit⟩⟩
  have hnext : (Files.contents [("a", [])] ++ [[]]).modify 0 (fun root =>
      addEntry root "b" (UInt32.ofNat (Files.contents [("a", [])]).length)) =
      Files.contents [("a", []), ("b", [])] := by
    have hzero : (Files.contents [("a", [])] ++ [[]])[0]? = some (dirBytes ["a"]) := rfl
    rw [modify_eq_set hzero]
    exact (congrArg _ (addEntry_dirBytes ["a"] "b")).trans rfl
  rw [hnext]
  exact hcreate.contentsFit

end RCore.EasyFs
