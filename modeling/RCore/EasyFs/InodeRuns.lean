import RCore.EasyFs.FsMachine

/-!
# Runs of calls on any inode

The runs of `FsMachine` create names that can be read back and write to created
files only.  Here a call is a method of any inode in hand, the root included, with
any name and any buffer, as long as it returns.  `ContentsInv` ties the machine to
the byte lists of its inodes; every such call keeps it.
-/

namespace RCore.EasyFs

open RCore.Lib.LockedStore List Prog UInt32 Inode Files
open EasyFileSystem (layout superBlock)

variable {p : FsProg α} {s' : CacheState} {dev : Nat → Block}

/-! ## Calls -/

/-- A method of an inode, with its arguments. -/
inductive InodeCall where
  | create (name : String)
  | find (name : String)
  | ls
  | write (off : Nat) (buf : List UInt8)
  | read (off : Nat) (buf : List UInt8)
  | clear

namespace Machine

def call (m : Machine) (inode : Inode) : InodeCall → Option (FsResult × Machine)
  | .create name => do
      let (r, cache) ← (inode.create m.efs name).exec cacheBackend m.cache
      let files := match r with
        | some inode => m.files ++ [(name, inode)]
        | none => m.files
      some (.inode r, { m with cache := cache, files := files })
  | .find name => do
      let (r, cache) ← (inode.find m.efs name).exec cacheBackend m.cache
      some (.inode r, { m with cache := cache })
  | .ls => do
      let (v, cache) ← inode.ls.exec cacheBackend m.cache
      some (.names v, { m with cache := cache })
  | .write off buf => do
      let (n, cache) ← (inode.writeAt m.efs off buf).exec cacheBackend m.cache
      some (.size n, { m with cache := cache })
  | .read off buf => do
      let (r, cache) ← (inode.readAt off buf).exec cacheBackend m.cache
      some (.bytes r, { m with cache := cache })
  | .clear => do
      let ((), cache) ← (inode.clear m.efs).exec cacheBackend m.cache
      some (.unit, { m with cache := cache })

/-- The inodes in hand: the root and what `create` has returned. -/
def inodes (m : Machine) : List Inode := Inode.rootInode m.efs :: m.files.map Prod.snd

end Machine

/-! ## Runs -/

/-- Offsets and buffers are of machine size. -/
def InodeCall.Valid : InodeCall → Prop
  | .read off buf => off < 2 ^ 64 ∧ buf.length < 2 ^ 63
  | .create _ | .find _ | .ls | .write _ _ | .clear => True

/-- The byte lists after a call on inode number `k` that has returned `r`. -/
def nextContents (contents : List (List UInt8)) (k : Nat) (call : InodeCall) (r : FsResult) :
    List (List UInt8) :=
  match call, r with
  | .create name, .inode (some _) => (contents ++ [[]]).modify k fun root =>
      addEntry root name (UInt32.ofNat contents.length)
  | .write off buf, _ => contents.modify k fun c => writeBytes c off buf
  | .clear, _ => contents.modify k fun _ => []
  | _, _ => contents

/-- The byte lists fit into a file system made with these arguments.  Inode numbers are of 32
bits; that is no further condition unless the directory itself is cleared or written to,
since its size bounds the number of its entries. -/
structure ContentsFit (totalBlocks inodeBitmapBlocks : UInt32) (contents : List (List UInt8)) :
    Prop where
  inodes : contents.length ≤
    (EasyFileSystem.layout totalBlocks inodeBitmapBlocks).inodeBitmap.maximum
  numbers : contents.length < 2 ^ 32
  sizes : ∀ c ∈ contents, c.length ≤ maxFileSize
  blocks : blocksUsed contents ≤
    (EasyFileSystem.superBlock totalBlocks inodeBitmapBlocks).dataAreaBlocks.toNat

/-- The states of runs that begin with `EasyFileSystem::create` and go on with calls on the
inodes in hand, as long as these return and what they leave fits; with the byte lists. -/
inductive InodeReaches (totalBlocks inodeBitmapBlocks : UInt32) (dev : Nat → Block) :
    Machine → List (List UInt8) → Prop where
  | start {m : Machine} (hm : Machine.create totalBlocks inodeBitmapBlocks dev = some m) :
      InodeReaches totalBlocks inodeBitmapBlocks dev m [[]]
  | call {m m' : Machine} {contents : List (List UInt8)} {k : Nat} {inode : Inode}
      {call : InodeCall} {r : FsResult}
      (hm : InodeReaches totalBlocks inodeBitmapBlocks dev m contents)
      (hk : m.inodes[k]? = some inode) (hvalid : call.Valid)
      (hcall : m.call inode call = some (r, m'))
      (hfits : ContentsFit totalBlocks inodeBitmapBlocks (nextContents contents k call r)) :
      InodeReaches totalBlocks inodeBitmapBlocks dev m' (nextContents contents k call r)

/-! ## From the plain store to the cache -/

section Exec

variable {α : Type} {s : CacheState} {blk : Nat → Block}

theorem Holds.exec_fails (h : Holds s blk) (hp : p.Fails blockCacheSize ⟨blk, []⟩) :
    p.exec cacheBackend s = none :=
  cache_simulation.exec_eq_none h.1 hp

theorem exec_syncAll_some {p : FsProg α} {o : Option α} {s' : CacheState}
    (h : (p >>= fun a => syncAll (pure (some a))).exec cacheBackend s = some (o, s')) :
    ∃ a, o = some a := by
  rw [exec_bind] at h
  obtain ⟨⟨a, s₁⟩, -, hsync⟩ := Option.bind_eq_some_iff.mp h
  obtain ⟨s₂, -, hr⟩ := Option.bind_eq_some_iff.mp hsync
  cases hr
  exact ⟨a, rfl⟩

theorem exec_settles (hp : p.Settles blockCacheSize ⟨blk, []⟩) :
    (∃ a, ∀ s, Holds s blk → ∃ s', p.exec cacheBackend s = some (a, s') ∧ Holds s' blk) ∨
      ∀ s, Holds s blk → p.exec cacheBackend s = none := by
  rcases hp with ⟨a, hrun⟩ | hfail
  · exact Or.inl ⟨a, fun s hs => hs.exec_readOnly hrun⟩
  · exact Or.inr fun s hs => hs.exec_fails hfail

end Exec

/-! ## The invariant of runs -/

/-- The machine holds the byte lists `contents`. -/
structure ContentsInv (T b : UInt32) (m : Machine) (contents : List (List UInt8)) : Prop where
  efs : m.efs = EasyFileSystem.layout T b
  inodes : m.inodes = (List.range contents.length).map fun k =>
    Inode.ofId (EasyFileSystem.layout T b) (UInt32.ofNat k)
  holds : Holds m.cache m.cache.content
  inv : FsInv (EasyFileSystem.layout T b) b.toNat
    (EasyFileSystem.superBlock T b).dataAreaBlocks.toNat (EasyFileSystem.superBlock T b)
    m.cache.content contents

/-- A call has led from the byte lists `contents` to `contents'`, and tidy trees are tidy still. -/
structure ContentsNext (T b : UInt32) (m : Machine) (contents : List (List UInt8)) (m' : Machine)
    (contents' : List (List UInt8)) : Prop where
  inv : ContentsInv T b m' contents'
  tidy : (EasyFileSystem.layout T b).TidyFiles m.cache.content contents.length →
    (EasyFileSystem.layout T b).TidyFiles m'.cache.content contents'.length

namespace ContentsInv

variable {T b : UInt32} {m : Machine} {contents : List (List UInt8)}

section

variable (h : ContentsInv T b m contents)
include h

theorem length_inodes : m.inodes.length = contents.length := by
  rw [h.inodes, length_map, length_range]

theorem of_getElem_inodes {k : Nat} {inode : Inode} (hk : m.inodes[k]? = some inode) :
    ∃ c, contents[k]? = some c ∧
      inode = ofId (layout T b) (ofNat k) := by
  obtain ⟨hlt, -⟩ := List.getElem?_eq_some_iff.mp hk
  rw [h.length_inodes] at hlt
  rw [h.inodes, getElem?_map, getElem?_range hlt, Option.map_some, Option.some.injEq] at hk
  exact ⟨_, getElem?_eq_getElem hlt, hk.symm⟩

/-- What the machine shows of inode number `k` is its byte list. -/
theorem contentOf_eq {k : Nat} {c : List UInt8} (hk : contents[k]? = some c) :
    m.contentOf (ofId (layout T b) (ofNat k)) = c := by
  have hrep := h.inv.rep hk
  have hle := le_blocksFor c.length
  change (List.range ((layout T b).diskInode m.cache.content k).size.toNat).map
    (fileByte ((layout T b).diskInode m.cache.content k) m.cache.content) = c
  rw [hrep.size]
  apply ext_getElem
  · simp
  · intro i hi hi'
    rw [getElem_map, getElem_range, hrep.bytes i (by omega), getElem?_eq_getElem hi']
    rfl

theorem next {blk' : Nat → Block} {contents' : List (List UInt8)}
    (hlen : contents'.length = contents.length) (hholds : Holds s' blk')
    (hnew : RenewedOn T b m.cache.content contents blk' contents') :
    ContentsNext T b m contents { m with cache := s' } contents' := by
  have hcontent := hholds.content_eq
  refine ⟨⟨h.efs, ?_, hcontent.symm ▸ hholds, hcontent.symm ▸ hnew.inv⟩, fun htidy => ?_⟩
  · rw [hlen]
    exact h.inodes
  · simp only [hcontent]
    exact hnew.tidy htidy

theorem same (hholds : Holds s' m.cache.content) :
    ContentsNext T b m contents { m with cache := s' } contents :=
  h.next rfl hholds ⟨h.inv, fun htidy => htidy⟩

end

end ContentsInv

/-! ## What a call does -/

theorem modify_eq_set {contents : List (List UInt8)} {k : Nat} {c : List UInt8}
    (hk : contents[k]? = some c) (f : List UInt8 → List UInt8) :
    contents.modify k f = contents.set k (f c) := by
  rw [modify_eq_set_getElem?, hk]
  rfl

/-- Calls that only look. -/
def InodeCall.IsQuery : InodeCall → Prop
  | .find _ | .ls | .read _ _ => True
  | .create _ | .write _ _ | .clear => False

section Calls

variable {T b : UInt32} {contents : List (List UInt8)} {k : Nat} {c : List UInt8}

/-- A query changes no block, and what it returns depends on the blocks alone. -/
theorem call_query (hfit : LayoutFits T b) {blk : Nat → Block}
    (hinv : LaidOut T b blk contents) (hk : contents[k]? = some c) {call : InodeCall}
    (hquery : call.IsQuery) (hvalid : call.Valid) :
    (∃ r, ∀ m : Machine, m.efs = layout T b → Holds m.cache blk →
      ∃ s', m.call (ofId (layout T b) (ofNat k)) call =
        some (r, { m with cache := s' }) ∧ Holds s' blk) ∨
    ∀ m : Machine, m.efs = layout T b → Holds m.cache blk →
      m.call (ofId (layout T b) (ofNat k)) call = none := by
  have hg := hfit.geometry
  cases call with
  | create name | write off buf | clear => exact hquery.elim
  | find name =>
    rcases exec_settles (stops_find hinv hg (by decide) hk name).settles with ⟨a, ha⟩ | hnone
    · refine Or.inl ⟨.inode a, fun m hm hs => ?_⟩
      obtain ⟨s', hexec, hholds⟩ := ha m.cache hs
      refine ⟨s', ?_, hholds⟩
      rw [Machine.call, hm, hexec]
      rfl
    · refine Or.inr fun m hm hs => ?_
      rw [Machine.call, hm, hnone m.cache hs]
      rfl
  | ls =>
    rcases exec_settles (stops_ls hinv hg (by decide) hk).settles with ⟨a, ha⟩ | hnone
    · refine Or.inl ⟨.names a, fun m hm hs => ?_⟩
      obtain ⟨s', hexec, hholds⟩ := ha m.cache hs
      refine ⟨s', ?_, hholds⟩
      rw [Machine.call, hexec]
      rfl
    · refine Or.inr fun m hm hs => ?_
      rw [Machine.call, hnone m.cache hs]
      rfl
  | read off buf =>
    refine Or.inl ⟨.bytes (readBytes c off buf), fun m hm hs => ?_⟩
    obtain ⟨s', hexec, hholds⟩ :=
      hs.exec_readOnly (run_read hinv hg (by decide) hk hvalid.1 hvalid.2)
    refine ⟨s', ?_, hholds⟩
    rw [Machine.call, hexec]
    rfl

namespace ContentsInv

variable {m m' : Machine} {r : FsResult} (hfit : LayoutFits T b) (h : ContentsInv T b m contents)
  (hk : contents[k]? = some c)
include hfit h hk

theorem call_clear :
    ∃ s', m.call (ofId (layout T b) (ofNat k)) .clear =
        some (.unit, { m with cache := s' }) ∧
      ContentsNext T b m contents { m with cache := s' } (contents.set k []) := by
  obtain ⟨blk', hrun, hinv⟩ := run_clear_renewed blockCacheSize_gt h.inv hfit.geometry hk
  obtain ⟨s', hexec, hholds⟩ := exec_synced id h.holds.1 hrun
  have hclear : ((ofId (layout T b) (ofNat k)).clear
      (layout T b)).exec cacheBackend m.cache = some ((), s') := hexec
  refine ⟨s', ?_, h.next (length_set ..) hholds hinv⟩
  rw [Machine.call, h.efs, hclear]
  rfl

theorem call_write {off : Nat} {buf : List UInt8} (hbuf : buf ≠ [])
    (hfits : ContentsFit T b (contents.set k (writeBytes c off buf))) :
    ∃ s', m.call (ofId (layout T b) (ofNat k)) (.write off buf) =
        some (.size buf.length, { m with cache := s' }) ∧
      ContentsNext T b m contents { m with cache := s' }
        (contents.set k (writeBytes c off buf)) := by
  obtain ⟨hlt, -⟩ := List.getElem?_eq_some_iff.mp hk
  obtain ⟨blk', hrun, hinv⟩ := run_write_renewed blockCacheSize_gt h.inv hfit.geometry hk
    (length_pos_of_ne_nil hbuf) (hfits.sizes _ (mem_set hlt _)) hfits.blocks
  obtain ⟨s', hexec, hholds⟩ := exec_synced id h.holds.1 hrun
  have hwrite : ((ofId (layout T b) (ofNat k)).writeAt
      (layout T b) off buf).exec cacheBackend m.cache = some (buf.length, s') := hexec
  refine ⟨s', ?_, h.next (length_set ..) hholds hinv⟩
  rw [Machine.call, h.efs, hwrite]
  rfl

theorem of_call_write {off : Nat} {buf : List UInt8}
    (hcall : m.call (ofId (layout T b) (ofNat k)) (.write off buf) =
      some (r, m'))
    (hfits : ContentsFit T b (contents.set k (writeBytes c off buf))) :
    ContentsNext T b m contents m' (contents.set k (writeBytes c off buf)) := by
  obtain ⟨hlt, -⟩ := List.getElem?_eq_some_iff.mp hk
  by_cases hbuf : buf = []
  · subst hbuf
    rcases run_write_nil blockCacheSize_gt h.inv hfit.geometry hk
      (hfits.sizes _ (mem_set hlt _)) hfits.blocks with ⟨n, blk', hrun, hinv⟩ | hfail
    · obtain ⟨s', hexec, hholds⟩ := exec_synced id h.holds.1 hrun
      have hwrite : ((ofId (layout T b) (ofNat k)).writeAt
          (layout T b) off []).exec cacheBackend m.cache = some (n, s') := hexec
      rw [Machine.call, h.efs, hwrite] at hcall
      cases hcall
      have hnext := h.next (length_set ..) hholds hinv
      rw [h.efs] at hnext
      exact hnext
    · have hnone : ((ofId (layout T b) (ofNat k)).writeAt
          (layout T b) off []).exec cacheBackend m.cache = none :=
        h.holds.exec_fails (fails_bind_left hfail _)
      rw [Machine.call, h.efs, hnone] at hcall
      cases hcall
  · obtain ⟨s', hwrite, hnext⟩ := h.call_write hfit hk hbuf hfits
    rw [hwrite] at hcall
    cases hcall
    exact hnext

omit hfit in
theorem next_create (hroot : k = 0) {name : String} {blk' : Nat → Block} (hholds : Holds s' blk')
    (hnew : RenewedOn T b m.cache.content contents blk'
      ((contents ++ [[]]).set 0 (addEntry c name (ofNat contents.length)))) :
    ContentsNext T b m contents { m with
      cache := s'
      files := m.files ++ [(name, ofId (layout T b) (ofNat contents.length))] }
      ((contents ++ [[]]).modify k fun root =>
        addEntry root name (ofNat contents.length)) := by
  subst hroot
  have hcontent := hholds.content_eq
  have hzero : (contents ++ [[]])[0]? = some c := by
    obtain ⟨hlt, -⟩ := List.getElem?_eq_some_iff.mp hk
    rw [List.getElem?_append_left hlt]
    exact hk
  have hinodes := h.inodes
  rw [Machine.inodes] at hinodes
  rw [modify_eq_set hzero]
  refine ⟨⟨h.efs, ?_, hcontent.symm ▸ hholds, hcontent.symm ▸ hnew.inv⟩, fun htidy => ?_⟩
  · rw [Machine.inodes, map_append, ← cons_append, hinodes, length_set,
      length_append, length_singleton, range_succ, map_append]
    rfl
  · simp only [hcontent]
    exact hnew.tidy htidy

omit h in
/-- The part of `create` after the search, if there is room for the new file and its entry: it
fails for a name that is longer than the field of an entry. -/
theorem exec_createNew {blk : Nat → Block} {s₁ : CacheState} (hroot : k = 0) (name : String)
    (hinv : LaidOut T b blk contents) (hholds : Holds s₁ blk)
    (hfits : ContentsFit T b
      ((contents ++ [[]]).set 0 (addEntry c name (ofNat contents.length)))) :
    (∃ s' blk', (do
        let inode ← (rootInode (layout T b)).createNew (layout T b) name
        syncAll (pure (some inode)) : FsProg (Option Inode)).exec cacheBackend s₁ =
          some (some (ofId (layout T b) (ofNat contents.length)), s') ∧
      Holds s' blk' ∧
      RenewedOn T b blk contents blk'
        ((contents ++ [[]]).set 0 (addEntry c name (ofNat contents.length)))) ∨
    (do
      let inode ← (rootInode (layout T b)).createNew (layout T b) name
      syncAll (pure (some inode)) : FsProg (Option Inode)).exec cacheBackend s₁ = none := by
  subst hroot
  have hg := hfit.geometry
  have hinodes := hfits.inodes
  have hnumbers := hfits.numbers
  have hmax : (layout T b).inodeBitmap.maximum = b.toNat * 4096 := rfl
  rw [length_set, length_append, length_singleton] at hinodes hnumbers
  rw [hmax] at hinodes
  have hsize := hfits.sizes _ (mem_set (by simp) _)
  have hcount : contents.length < 4096 * b.toNat := by omega
  by_cases hname : (strBytes name).length ≤ nameLengthLimit + 1
  · obtain ⟨blk', hrun, hinv'⟩ := run_createNew blockCacheSize_gt hinv hg hk hcount hnumbers hsize
      hfits.blocks hname
    obtain ⟨s', hexec, hholds'⟩ := exec_synced some hholds.1 hrun
    exact Or.inl ⟨s', blk', hexec, hholds', hinv'⟩
  · have hpanic := panics_createNew blockCacheSize_gt hinv hg hk hcount hnumbers hsize hfits.blocks
      hname
    exact Or.inr (hholds.exec_fails (panics_bind_left hpanic _).fails)

/-- Any inode and any name: if `create` returns a handle, an empty file and an entry for it
have been added; if it returns nothing, nothing has changed. -/
theorem of_call_create {name : String}
    (hcall : m.call (ofId (layout T b) (ofNat k)) (.create name) =
      some (r, m'))
    (hfits : ContentsFit T b (nextContents contents k (.create name) r)) :
    ContentsNext T b m contents m' (nextContents contents k (.create name) r) := by
  by_cases hroot : k = 0
  · obtain ⟨hlt, -⟩ := List.getElem?_eq_some_iff.mp hk
    rcases exec_settles (stops_search h.inv hfit.geometry (by decide) hk name).settles with
      ⟨found, hfound⟩ | hnone
    · obtain ⟨s₁, hs₁, hholds₁⟩ := hfound m.cache h.holds
      have hcreate : ((ofId (layout T b) (ofNat k)).create
          (layout T b) name).exec cacheBackend m.cache =
          (if found.isSome then pure none else do
            let inode ← (ofId (layout T b) (ofNat k)).createNew (layout T b) name
            syncAll (pure (some inode)) : FsProg (Option Inode)).exec cacheBackend s₁ := by
        rw [create, exec_bind, hs₁]
        rfl
      rw [Machine.call, h.efs, hcreate] at hcall
      by_cases hsome : found.isSome
      · rw [if_pos hsome] at hcall
        cases hcall
        have hnext := h.same hholds₁
        rw [h.efs] at hnext
        exact hnext
      · rw [if_neg hsome] at hcall
        obtain ⟨⟨o, s₂⟩, ho, hr⟩ := Option.bind_eq_some_iff.mp hcall
        -- what is returned after the search is a handle, so that the new file must fit
        obtain ⟨inode, rfl⟩ := exec_syncAll_some ho
        cases hr
        have hzero : (contents ++ [[]])[k]? = some c := by
          rw [List.getElem?_append_left hlt]
          exact hk
        rw [nextContents, modify_eq_set hzero, hroot] at hfits
        rw [hroot] at ho
        rcases exec_createNew hfit hk hroot name h.inv hholds₁ hfits with
          ⟨s', blk', hexec, hholds', hinv'⟩ | hnone
        · obtain ⟨hhandle, hcache⟩ := Prod.mk.inj (Option.some.inj (hexec.symm.trans ho))
          have hnext := h.next_create hk hroot hholds' hinv'
          rw [h.efs] at hnext
          rw [← hcache, ← Option.some.inj hhandle]
          exact hnext
        · exact absurd (hnone.symm.trans ho) (by simp)
    · have hfail : ((ofId (layout T b) (ofNat k)).create
          (layout T b) name).exec cacheBackend m.cache = none := by
        rw [create, exec_bind, hnone m.cache h.holds]
        rfl
      rw [Machine.call, h.efs, hfail] at hcall
      cases hcall
  · have hnone := h.holds.exec_fails (panics_create h.inv hk (by decide) hroot name).fails
    rw [Machine.call, h.efs, hnone] at hcall
    cases hcall

end ContentsInv

theorem ContentsInv.call {m m' : Machine} {inode : Inode} {call : InodeCall} {r : FsResult}
    (hfit : LayoutFits T b) (h : ContentsInv T b m contents) (hk : m.inodes[k]? = some inode)
    (hvalid : call.Valid) (hcall : m.call inode call = some (r, m'))
    (hfits : ContentsFit T b (nextContents contents k call r)) :
    ContentsNext T b m contents m' (nextContents contents k call r) := by
  obtain ⟨c, hc, rfl⟩ := h.of_getElem_inodes hk
  -- a query leaves the byte lists alone
  have hlook : call.IsQuery → ContentsNext T b m contents m' contents := by
    intro hquery
    rcases call_query hfit h.inv hc hquery hvalid with ⟨r', hr'⟩ | hnone
    · obtain ⟨s', hstep, hholds⟩ := hr' m h.efs h.holds
      rw [hstep] at hcall
      cases hcall
      exact h.same hholds
    · rw [hnone m h.efs h.holds] at hcall
      cases hcall
  cases call with
  | create name => exact h.of_call_create hfit hc hcall hfits
  | find name | ls | read off buf => exact hlook trivial
  | write off buf =>
    rw [nextContents, modify_eq_set hc] at hfits ⊢
    exact h.of_call_write hfit hc hcall hfits
  | clear =>
    obtain ⟨s', hclear, hnext⟩ := h.call_clear hfit hc
    rw [hclear] at hcall
    cases hcall
    rw [nextContents, modify_eq_set hc]
    exact hnext

section

variable (hfit : LayoutFits T b) {m : Machine}
include hfit

theorem contentsInv_create (hm : Machine.create T b dev = some m) : ContentsInv T b m [[]] := by
  obtain ⟨m', hm', hinv⟩ := machineInv_create hfit dev
  rw [hm', Option.some.injEq] at hm
  subst hm
  refine ⟨hinv.efs, ?_, hinv.holds, hinv.inv⟩
  rw [Machine.inodes, hinv.files, hinv.efs]
  rfl

theorem InodeReaches.contentsInv (h : InodeReaches T b dev m contents) :
    ContentsInv T b m contents := by
  induction h with
  | start hm => exact contentsInv_create hfit hm
  | call _ hk hvalid hcall hfits ih => exact (ih.call hfit hk hvalid hcall hfits).inv

theorem tidy_create (hm : Machine.create T b dev = some m) :
    (layout T b).TidyFiles m.cache.content 1 := by
  obtain ⟨blk', hrun, -, htidy⟩ := run_format (show 0 < blockCacheSize by decide) hfit dev
  obtain ⟨s', hexec, hholds⟩ := exec_synced id (represents_init dev) hrun
  have hcreate : (EasyFileSystem.create T b).exec cacheBackend (CacheState.init dev) =
      some (layout T b, s') := hexec
  rw [Machine.create, hcreate] at hm
  cases hm
  simp only [hholds.content_eq]
  exact htidy

theorem InodeReaches.tidy (h : InodeReaches T b dev m contents) :
    (layout T b).TidyFiles m.cache.content contents.length := by
  induction h with
  | start hm => exact tidy_create hfit hm
  | call hm hk hvalid hcall hfits ih =>
    exact ((hm.contentsInv hfit).call hfit hk hvalid hcall hfits).tidy ih

end

end Calls

/-! ## The runs of the user's view -/

section View

variable {T b : UInt32} {m : Machine} {fs : Files}

theorem MachineInv.contentsInv (h : MachineInv T b m fs) : ContentsInv T b m fs.contents := by
  refine ⟨h.efs, ?_, h.holds, h.inv⟩
  rw [Machine.inodes, h.files, h.efs, length_contents, range_succ_eq_map]
  simp only [map_cons, map_map]
  congr 1
  apply ext_getElem <;> simp [handle]

theorem Files.Fits.contentsFit (h : Fits T b fs) : ContentsFit T b fs.contents := by
  have hdir := h.sizes (dirBytes fs.names) (by simp [contents])
  rw [maxFileSize_eq, length_dirBytes, length_names] at hdir
  refine ⟨?_, ?_, h.sizes, h.blocks⟩
  · rw [length_contents]
    exact h.inodes
  · rw [length_contents]
    omega

end View

end RCore.EasyFs
