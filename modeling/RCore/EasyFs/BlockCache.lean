import RCore.EasyFs.Block
import Mathlib.Data.List.Nodup
import Mathlib.Data.List.Forall2
import Mathlib.Data.List.Perm.Subperm
import RCore.Lib.Outcome

/-!
# The block cache

`BlockCacheManager` keeps at most `BLOCK_CACHE_SIZE` blocks of one device in
memory.  A cache entry is a heap object; the queue holds one reference to it and
every handle given to a caller holds another, and the entry is written back when
the last reference to it is dropped.  The model keeps the object heap explicit,
so that two objects for one block, or a handle on an evicted object, are states
it could reach.  `Coherent` says which states it does reach.
-/

namespace RCore.EasyFs

open Function List

variable {c : Nat → Block} {o q hs : List (Nat × Nat)} {p : Nat × Nat} {id h : Nat}

/-- `BLOCK_CACHE_SIZE`. -/
def blockCacheSize : Nat := 16

/-- `struct BlockCache`, for the one device of the state it lives in. -/
structure BlockCache where
  cache : Block
  blockId : Nat
  modified : Bool

/-- A device, the cache manager over it, and the handles its callers hold. -/
structure CacheState where
  /-- Contents of the device. -/
  dev : Nat → Block
  /-- `BlockCache` objects by address. -/
  heap : Nat → BlockCache
  /-- The next address that was never used. -/
  fresh : Nat
  /-- `BlockCacheManager::queue`: block number and address of the object. -/
  queue : List (Nat × Nat)
  /-- The handles held by callers: the caller's name for it, and the address. -/
  handles : List (Nat × Nat)

namespace CacheState

/-- An empty cache over a device. -/
def init (dev : Nat → Block) : CacheState where
  dev := dev
  heap := fun _ => ⟨Block.zero, 0, false⟩
  fresh := 0
  queue := []
  handles := []

/-- `BlockCache::new`: load a block from the device. -/
def newCache (s : CacheState) (blockId : Nat) : BlockCache where
  cache := s.dev blockId
  blockId := blockId
  modified := false

/-- `BlockCache::sync` on the object at address `a`; also its `Drop`. -/
def sync (s : CacheState) (a : Nat) : CacheState :=
  if (s.heap a).modified then
    { s with
      heap := Function.update s.heap a { s.heap a with modified := false }
      dev := Function.update s.dev (s.heap a).blockId (s.heap a).cache }
  else s

/-- `Arc::strong_count`: one reference from the queue, one from each handle. -/
def strongCount (s : CacheState) (a : Nat) : Nat :=
  (s.queue.map Prod.snd).count a + (s.handles.map Prod.snd).count a

/-- Make room in a full queue: drain the first entry that only the queue refers
to.  The drained object has no reference left and is dropped. -/
def substitute (s : CacheState) : Option CacheState :=
  match s.queue.find? fun p => s.strongCount p.2 == 1 with
  | some p =>
      some { s.sync p.2 with queue := s.queue.eraseP fun p => s.strongCount p.2 == 1 }
  | none => none  -- "Run out of BlockCache!"

/-- `BlockCacheManager::get_block_cache`: the address of the block's object. -/
def getBlockCache (s : CacheState) (blockId : Nat) : Option (Nat × CacheState) :=
  match s.queue.find? fun p => p.1 == blockId with
  | some p => some (p.2, s)
  | none =>
      (if s.queue.length = blockCacheSize then s.substitute else some s).map fun s =>
        (s.fresh, { s with
          heap := Function.update s.heap s.fresh (s.newCache blockId)
          fresh := s.fresh + 1
          queue := s.queue ++ [(blockId, s.fresh)] })

/-- Keep the result of `getBlockCache` under the name `h`. -/
def getHandle (s : CacheState) (h blockId : Nat) : Option CacheState := do
  let (a, s) ← s.getBlockCache blockId
  some { s with handles := (h, a) :: s.handles }

/-- `BlockCache::read` through the handle `h`. -/
def read (s : CacheState) (h : Nat) : Option Block := do
  let a ← s.handles.lookup h
  some (s.heap a).cache

/-- `BlockCache::modify` through the handle `h`. -/
def modify (s : CacheState) (h : Nat) (f : Block → Block) : Option CacheState := do
  let a ← s.handles.lookup h
  let cache := { s.heap a with cache := f (s.heap a).cache, modified := true }
  some { s with heap := Function.update s.heap a cache }

/-- Drop the handle `h`; with the last reference the object goes as well. -/
def dropHandle (s : CacheState) (h : Nat) : Option CacheState := do
  let a ← s.handles.lookup h
  let s := { s with handles := s.handles.eraseP fun p => p.1 == h }
  some (if s.strongCount a = 0 then s.sync a else s)

/-- `block_cache_sync_all`. -/
def syncAll (s : CacheState) : CacheState :=
  s.queue.foldl (fun s p => s.sync p.2) s

/-! ## What the cache stands for -/

/-- The cache stands for the block contents `c`, and the handles stand for the
blocks given in `owners`, name by name. -/
structure Coherent (s : CacheState) (c : Nat → Block) (owners : List (Nat × Nat)) : Prop where
  ids : (s.queue.map Prod.fst).Nodup
  addrs : (s.queue.map Prod.snd).Nodup
  size : s.queue.length ≤ blockCacheSize
  fresh : ∀ p ∈ s.queue, p.2 < s.fresh
  blockId : ∀ p ∈ s.queue, (s.heap p.2).blockId = p.1
  cached : ∀ p ∈ s.queue, (s.heap p.2).cache = c p.1
  synced : ∀ p ∈ s.queue, (s.heap p.2).modified = false → s.dev p.1 = c p.1
  uncached : ∀ id, id ∉ s.queue.map Prod.fst → s.dev id = c id
  owned : List.Forall₂ (fun p o => p.1 = o.1 ∧ (o.2, p.2) ∈ s.queue) s.handles owners

/-- Device and logical contents agree everywhere. -/
def Clean (s : CacheState) (c : Nat → Block) : Prop := ∀ id, s.dev id = c id

theorem coherent_init (dev : Nat → Block) : Coherent (init dev) dev [] where
  ids := by simp [init]
  addrs := by simp [init]
  size := by simp [init]
  fresh := by simp [init]
  blockId := by simp [init]
  cached := by simp [init]
  synced := by simp [init]
  uncached := fun _ _ => rfl
  owned := .nil

/-! ## Writing back -/

@[simp] theorem sync_queue (s : CacheState) (a : Nat) : (s.sync a).queue = s.queue := by
  unfold sync
  split <;> rfl

@[simp] theorem sync_handles (s : CacheState) (a : Nat) :
    (s.sync a).handles = s.handles := by
  unfold sync
  split <;> rfl

@[simp] theorem sync_fresh (s : CacheState) (a : Nat) : (s.sync a).fresh = s.fresh := by
  unfold sync
  split <;> rfl

@[simp] theorem sync_heap_cache (s : CacheState) (a a' : Nat) :
    ((s.sync a).heap a').cache = (s.heap a').cache := by
  unfold sync
  split
  · by_cases h : a' = a
    · subst h; simp
    · simp [update_of_ne h]
  · rfl

@[simp] theorem sync_heap_blockId (s : CacheState) (a a' : Nat) :
    ((s.sync a).heap a').blockId = (s.heap a').blockId := by
  unfold sync
  split
  · by_cases h : a' = a
    · subst h; simp
    · simp [update_of_ne h]
  · rfl

theorem sync_heap_modified (s : CacheState) (a a' : Nat) :
    ((s.sync a).heap a').modified = if a' = a then false else (s.heap a').modified := by
  unfold sync
  split
  · by_cases h : a' = a
    · subst h; simp
    · simp [h]
  · rename_i hm
    by_cases h : a' = a
    · subst h; simpa using hm
    · simp [h]

variable {s : CacheState}

theorem Coherent.eq_of_addr (hs : Coherent s c o) {q : Nat × Nat} (hp : p ∈ s.queue)
    (hq : q ∈ s.queue) (h : p.2 = q.2) : p = q :=
  inj_on_of_nodup_map hs.addrs hp hq h

theorem Coherent.sync_dev (hs : Coherent s c o) (hp : p ∈ s.queue) (id : Nat) :
    (s.sync p.2).dev id = if id = p.1 then c p.1 else s.dev id := by
  unfold sync
  split
  · rw [hs.blockId p hp, hs.cached p hp]
    by_cases h : id = p.1
    · subst h; simp
    · simp [h]
  · rename_i hm
    by_cases h : id = p.1
    · subst h
      rw [if_pos rfl]
      exact hs.synced p hp (by simpa using hm)
    · simp [h]

theorem Coherent.sync (hs : Coherent s c o) (hp : p ∈ s.queue) :
    Coherent (s.sync p.2) c o where
  ids := by simpa using hs.ids
  addrs := by simpa using hs.addrs
  size := by simpa using hs.size
  fresh := by simpa using hs.fresh
  blockId := by simpa using hs.blockId
  cached := by simpa using hs.cached
  synced := by
    intro q hq hm
    rw [sync_queue] at hq
    rw [hs.sync_dev hp]
    split
    · rename_i hid
      rw [hid]
    · rename_i hid
      have hne : q.2 ≠ p.2 := fun h => hid (by rw [hs.eq_of_addr hq hp h])
      rw [sync_heap_modified, if_neg hne] at hm
      exact hs.synced q hq hm
  uncached := by
    intro id hid
    rw [sync_queue] at hid
    rw [hs.sync_dev hp, if_neg]
    · exact hs.uncached id hid
    · rintro rfl
      exact hid (mem_map_of_mem hp)
  owned := by simpa using hs.owned

theorem Coherent.sync_clean (hs : Coherent s c o) (hp : p ∈ s.queue) (hcl : Clean s c) :
    Clean (s.sync p.2) c := by
  intro id
  rw [hs.sync_dev hp]
  split
  · rename_i h; rw [h]
  · exact hcl id

/-- Writing back a part `l` of the queue leaves a coherent state in which no entry
of that part is modified. -/
theorem Coherent.foldl_sync (hs : Coherent s c o) (l : List (Nat × Nat))
    (hl : ∀ p ∈ l, p ∈ s.queue) :
    Coherent (l.foldl (fun s p => s.sync p.2) s) c o ∧
      (l.foldl (fun s p => s.sync p.2) s).queue = s.queue ∧
      ∀ q ∈ s.queue, (q ∈ l ∨ (s.heap q.2).modified = false) →
        ((l.foldl (fun s p => s.sync p.2) s).heap q.2).modified = false := by
  induction l generalizing s with
  | nil =>
    refine ⟨hs, rfl, fun q _ h => ?_⟩
    simpa using h
  | cons p l ih =>
    have hp : p ∈ s.queue := hl p (by simp)
    obtain ⟨hco, hqueue, hmod⟩ := ih (hs.sync hp)
      (fun q hq => by simpa using hl q (by simp [hq]))
    refine ⟨hco, by simpa using hqueue, fun q hq h => ?_⟩
    apply hmod q (by simpa using hq)
    rw [sync_heap_modified]
    by_cases hqp : q.2 = p.2
    · right; rw [if_pos hqp]
    · rw [if_neg hqp]
      rcases h with h | h
      · rcases mem_cons.mp h with rfl | h
        · exact absurd rfl hqp
        · exact Or.inl h
      · exact Or.inr h

/-- `block_cache_sync_all` leaves every device block equal to its logical
contents. -/
theorem Coherent.syncAll (hs : Coherent s c o) : Coherent s.syncAll c o ∧ Clean s.syncAll c := by
  obtain ⟨hco, hqueue, hmod⟩ := hs.foldl_sync s.queue (fun _ h => h)
  refine ⟨hco, fun id => ?_⟩
  by_cases hid : id ∈ s.queue.map Prod.fst
  · obtain ⟨p, hp, rfl⟩ := mem_map.mp hid
    exact hco.synced p (by rw [hqueue]; exact hp) (hmod p hp (Or.inl hp))
  · exact hco.uncached id (by rw [hqueue]; exact hid)

/-! ## Taking a handle -/

theorem owned_mono {q' : List (Nat × Nat)}
    (h : Forall₂ (fun p o => p.1 = o.1 ∧ (o.2, p.2) ∈ q) hs o)
    (hq : ∀ p ∈ q, p.2 ∈ hs.map Prod.snd → p ∈ q') :
    Forall₂ (fun p o => p.1 = o.1 ∧ (o.2, p.2) ∈ q') hs o := by
  induction h with
  | nil => exact .nil
  | cons hp _ ih =>
    refine .cons ⟨hp.1, hq _ hp.2 (by simp)⟩ (ih fun p hpq hmem => hq p hpq ?_)
    simp only [map_cons, mem_cons]
    exact Or.inr hmem

theorem Coherent.strongCount_eq_one (hs : Coherent s c o) (hp : p ∈ s.queue) :
    s.strongCount p.2 = 1 ↔ p.2 ∉ s.handles.map Prod.snd := by
  have hqueue : (s.queue.map Prod.snd).count p.2 = 1 :=
    count_eq_one_of_mem hs.addrs (mem_map_of_mem hp)
  rw [strongCount, hqueue, ← count_eq_zero]
  omega

/-- An entry without a handle is written back and leaves the queue. -/
theorem Coherent.evict (hs : Coherent s c o) {pre post : List (Nat × Nat)}
    (hsplit : s.queue = pre ++ p :: post) (hfree : p.2 ∉ s.handles.map Prod.snd) :
    Coherent { s.sync p.2 with queue := pre ++ post } c o := by
  have hp : p ∈ s.queue := by simp [hsplit]
  have hsublist : (pre ++ post).Sublist s.queue := by
    rw [hsplit]
    exact (Sublist.refl pre).append (sublist_cons_self p post)
  have hsub := hsublist.subset
  have hback : ∀ q ∈ s.queue, q ≠ p → q ∈ pre ++ post := by
    intro q hq hne
    rw [hsplit] at hq
    simp only [mem_append, mem_cons] at hq ⊢
    tauto
  have hsync := hs.sync hp
  constructor
  · exact hs.ids.sublist (hsublist.map _)
  · exact hs.addrs.sublist (hsublist.map _)
  · exact hsublist.length_le.trans hs.size
  · exact fun q hq => hsync.fresh q (by simpa using hsub hq)
  · exact fun q hq => hsync.blockId q (by simpa using hsub hq)
  · exact fun q hq => hsync.cached q (by simpa using hsub hq)
  · exact fun q hq => hsync.synced q (by simpa using hsub hq)
  · intro id hid
    change (s.sync p.2).dev id = c id
    rw [hs.sync_dev hp]
    split
    · rename_i h; rw [h]
    · rename_i h
      apply hs.uncached id
      intro hmem
      obtain ⟨q, hq, rfl⟩ := mem_map.mp hmem
      exact hid (mem_map_of_mem (hback q hq fun hqp => h (by rw [hqp])))
  · change Forall₂ _ (s.sync p.2).handles o
    rw [sync_handles]
    refine owned_mono hs.owned fun q hq hheld => hback q hq ?_
    rintro rfl
    exact hfree hheld

/-- Eviction: it succeeds when some entry is not held, it removes one entry that is
not held, and what it removes has reached the device. -/
theorem Coherent.substitute (hs : Coherent s c o)
    (hfree : ∃ p ∈ s.queue, p.2 ∉ s.handles.map Prod.snd) :
    ∃ s', s.substitute = some s' ∧ Coherent s' c o ∧ s'.handles = s.handles ∧
      s'.queue.length + 1 = s.queue.length ∧ (∀ p ∈ s'.queue, p ∈ s.queue) ∧
      (Clean s c → Clean s' c) := by
  obtain ⟨p₀, hp₀, hfree₀⟩ := hfree
  have hone₀ : (s.strongCount p₀.2 == 1) = true := by
    simpa using (hs.strongCount_eq_one hp₀).mpr hfree₀
  obtain ⟨p, hfind⟩ : ∃ p, s.queue.find? (fun p => s.strongCount p.2 == 1) = some p := by
    rw [← Option.isSome_iff_exists, find?_isSome]
    exact ⟨p₀, hp₀, hone₀⟩
  -- the first entry with count one is the entry that `find?` returned
  obtain ⟨hone, pre, post, hsplit, hpre⟩ := find?_eq_some_iff_append.mp hfind
  have hp : p ∈ s.queue := mem_of_find?_eq_some hfind
  have hpfree : p.2 ∉ s.handles.map Prod.snd :=
    (hs.strongCount_eq_one hp).mp (by simpa using hone)
  have herase : (s.queue.eraseP fun p => s.strongCount p.2 == 1) = pre ++ post := by
    rw [hsplit, eraseP_append_right _ fun q hq => by simpa using hpre q hq, eraseP_cons, hone]
    rfl
  refine ⟨{ s.sync p.2 with queue := pre ++ post }, ?_, hs.evict hsplit hpfree, by simp, ?_, ?_, ?_⟩
  · rw [CacheState.substitute, hfind, herase]
  · change (pre ++ post).length + 1 = s.queue.length
    rw [hsplit]
    simp only [length_append, length_cons]
    omega
  · intro q hq
    rw [hsplit]
    simp only [mem_append, mem_cons] at hq ⊢
    tauto
  · exact fun hcl => hs.sync_clean hp hcl

theorem Coherent.makeRoom (hs : Coherent s c o)
    (hroom : s.queue.length < blockCacheSize ∨ ∃ p ∈ s.queue, p.2 ∉ s.handles.map Prod.snd) :
    ∃ t, (if s.queue.length = blockCacheSize then s.substitute else some s) = some t ∧
      Coherent t c o ∧ t.handles = s.handles ∧ t.queue.length < blockCacheSize ∧
      (∀ p ∈ t.queue, p ∈ s.queue) ∧ (Clean s c → Clean t c) := by
  by_cases hfull : s.queue.length = blockCacheSize
  · have hfree : ∃ p ∈ s.queue, p.2 ∉ s.handles.map Prod.snd := by
      rcases hroom with h | h
      · omega
      · exact h
    obtain ⟨t, ht, hco, hhandles, hlen, hsub, hcl⟩ := hs.substitute hfree
    exact ⟨t, by rw [if_pos hfull, ht], hco, hhandles, by omega, hsub, hcl⟩
  · have hlt : s.queue.length < blockCacheSize := lt_of_le_of_ne hs.size hfull
    exact ⟨s, by rw [if_neg hfull], hs, rfl, hlt, fun _ h => h, fun h => h⟩

/-- A block that is not cached is loaded into a new entry. -/
theorem Coherent.insert (hs : Coherent s c o) (hlen : s.queue.length < blockCacheSize)
    (hmiss : id ∉ s.queue.map Prod.fst) :
    Coherent { s with
      heap := update s.heap s.fresh (s.newCache id)
      fresh := s.fresh + 1
      queue := s.queue ++ [(id, s.fresh)] } c o := by
  have hnew : ∀ p ∈ s.queue, p.2 ≠ s.fresh := fun p hp => (hs.fresh p hp).ne
  constructor
  · simp only [map_append, map_cons, map_nil]
    exact Nodup.append hs.ids (by simp) (by simpa using hmiss)
  · simp only [map_append, map_cons, map_nil]
    refine Nodup.append hs.addrs (by simp) ?_
    simp only [disjoint_singleton, mem_map, not_exists, not_and]
    exact hnew
  · simp only [length_append, length_cons, length_nil]
    omega
  · intro p hp
    rcases mem_append.mp hp with hp | hp
    · exact Nat.lt_succ_of_lt (hs.fresh p hp)
    · rw [mem_singleton.mp hp]
      exact Nat.lt_succ_self _
  · intro p hp
    rcases mem_append.mp hp with hp | hp
    · simpa [update_of_ne (hnew p hp)] using hs.blockId p hp
    · rw [mem_singleton.mp hp]
      simp [newCache]
  · intro p hp
    rcases mem_append.mp hp with hp | hp
    · simpa [update_of_ne (hnew p hp)] using hs.cached p hp
    · rw [mem_singleton.mp hp]
      simpa [newCache] using hs.uncached id hmiss
  · intro p hp hm
    rcases mem_append.mp hp with hp | hp
    · simp only [update_of_ne (hnew p hp)] at hm
      exact hs.synced p hp hm
    · rw [mem_singleton.mp hp]
      exact hs.uncached id hmiss
  · intro id' hid'
    apply hs.uncached
    simp only [map_append, mem_append, not_or] at hid'
    exact hid'.1
  · exact owned_mono hs.owned fun p hp _ => mem_append_left _ hp

/-- `get_block_cache` of a block that is cached, or when an entry is free for
eviction, returns an object for that block and loses nothing. -/
theorem Coherent.getBlockCache (hs : Coherent s c o) (hroom : id ∈ s.queue.map Prod.fst ∨
      s.queue.length < blockCacheSize ∨ ∃ p ∈ s.queue, p.2 ∉ s.handles.map Prod.snd) :
    ∃ a s', s.getBlockCache id = some (a, s') ∧ Coherent s' c o ∧ s'.handles = s.handles ∧
      (id, a) ∈ s'.queue ∧ (Clean s c → Clean s' c) := by
  unfold CacheState.getBlockCache
  cases hfind : s.queue.find? fun p => p.1 == id with
  | some p =>
    have hid : p.1 = id := by simpa using find?_some hfind
    have hp : p ∈ s.queue := mem_of_find?_eq_some hfind
    refine ⟨p.2, s, rfl, hs, rfl, ?_, fun h => h⟩
    rw [← hid]
    exact hp
  | none =>
    have hmiss : id ∉ s.queue.map Prod.fst := by
      intro hmem
      obtain ⟨p, hp, hpid⟩ := mem_map.mp hmem
      have hno := find?_eq_none.mp hfind p hp
      simp [hpid] at hno
    obtain ⟨t, ht, hco, hhandles, hlen, hsub, hcl⟩ := hs.makeRoom (hroom.resolve_left hmiss)
    have hmiss' : id ∉ t.queue.map Prod.fst := by
      intro hmem
      obtain ⟨p, hp, rfl⟩ := mem_map.mp hmem
      exact hmiss (mem_map_of_mem (hsub p hp))
    simp only [ht, Option.map_some]
    exact ⟨_, _, rfl, hco.insert hlen hmiss', hhandles, by simp, hcl⟩

theorem Coherent.getHandle (hs : Coherent s c o) (hroom : id ∈ s.queue.map Prod.fst ∨
      s.queue.length < blockCacheSize ∨ ∃ p ∈ s.queue, p.2 ∉ s.handles.map Prod.snd) :
    ∃ s', s.getHandle h id = some s' ∧ Coherent s' c ((h, id) :: o) ∧
      (Clean s c → Clean s' c) := by
  obtain ⟨a, t, ht, hco, -, hmem, hcl⟩ := hs.getBlockCache hroom
  refine ⟨{ t with handles := (h, a) :: t.handles }, ?_, ?_, hcl⟩
  · simp [CacheState.getHandle, ht]
  · exact { hco with owned := .cons ⟨rfl, hmem⟩ hco.owned }

/-! ## Using and dropping a handle -/

/-- The handle named `h` stands for the block `owners` gives for it. -/
theorem lookup_owned (hf : Forall₂ (fun p o => p.1 = o.1 ∧ (o.2, p.2) ∈ q) hs o)
    (hid : o.lookup h = some id) : ∃ a, hs.lookup h = some a ∧ (id, a) ∈ q := by
  induction hf with
  | nil => simp at hid
  | @cons p o _ _ hp _ ih =>
    by_cases hh : h = o.1
    · refine ⟨p.2, ?_, ?_⟩
      · rw [lookup_cons, hp.1, hh]
        simp
      · rw [lookup_cons, hh] at hid
        simp only [beq_self_eq_true, Option.some.injEq] at hid
        rw [← hid]
        exact hp.2
    · have hh' : (h == o.1) = false := by simpa using hh
      rw [lookup_cons, hh'] at hid
      obtain ⟨a, ha, hmem⟩ := ih hid
      refine ⟨a, ?_, hmem⟩
      rw [lookup_cons, hp.1, hh']
      exact ha

theorem Coherent.read (hs : Coherent s c o) (hid : o.lookup h = some id) :
    s.read h = some (c id) := by
  obtain ⟨a, ha, hmem⟩ := lookup_owned hs.owned hid
  simp [CacheState.read, ha, hs.cached _ hmem]

theorem Coherent.modify (hs : Coherent s c o) (hid : o.lookup h = some id) (f : Block → Block) :
    ∃ s', s.modify h f = some s' ∧ Coherent s' (update c id (f (c id))) o ∧
      s'.dev = s.dev := by
  obtain ⟨a, ha, hmem⟩ := lookup_owned hs.owned hid
  let cache := { s.heap a with cache := f (s.heap a).cache, modified := true }
  refine ⟨{ s with heap := update s.heap a cache }, ?_, ?_, rfl⟩
  · simp [CacheState.modify, ha, cache]
  have hcases : ∀ p ∈ s.queue, p = (id, a) ∨ (p.1 ≠ id ∧ p.2 ≠ a) := by
    intro p hp
    by_cases hpa : p.2 = a
    · exact Or.inl (hs.eq_of_addr hp hmem hpa)
    · refine Or.inr ⟨fun hpid => hpa ?_, hpa⟩
      rw [inj_on_of_nodup_map hs.ids hp hmem hpid]
  constructor
  · exact hs.ids
  · exact hs.addrs
  · exact hs.size
  · exact hs.fresh
  · intro p hp
    rcases hcases p hp with rfl | ⟨-, hpa⟩
    · simpa [cache] using hs.blockId _ hmem
    · simpa [update_of_ne hpa] using hs.blockId p hp
  · intro p hp
    rcases hcases p hp with rfl | ⟨hpid, hpa⟩
    · simp [cache, hs.cached _ hmem]
    · simpa [update_of_ne hpa, update_of_ne hpid] using hs.cached p hp
  · intro p hp hm
    rcases hcases p hp with rfl | ⟨hpid, hpa⟩
    · simp [cache] at hm
    · simp only [update_of_ne hpa] at hm
      rw [update_of_ne hpid]
      exact hs.synced p hp hm
  · intro id' hid'
    have hne : id' ≠ id := by
      rintro rfl
      exact hid' (mem_map_of_mem hmem)
    rw [update_of_ne hne]
    exact hs.uncached id' hid'
  · exact hs.owned

theorem owned_eraseP (hf : Forall₂ (fun p o => p.1 = o.1 ∧ (o.2, p.2) ∈ q) hs o) (h : Nat) :
    Forall₂ (fun p o => p.1 = o.1 ∧ (o.2, p.2) ∈ q)
      (hs.eraseP fun p => p.1 == h) (o.eraseP fun p => p.1 == h) := by
  induction hf with
  | nil => exact .nil
  | @cons p o _ _ hp hrest ih =>
    rw [eraseP_cons, eraseP_cons, hp.1]
    cases o.1 == h with
    | true => exact hrest
    | false => exact .cons hp ih

theorem Coherent.dropHandle (hs : Coherent s c o) (hid : o.lookup h = some id) :
    ∃ s', s.dropHandle h = some s' ∧ Coherent s' c (o.eraseP fun p => p.1 == h) ∧
      s'.dev = s.dev := by
  obtain ⟨a, ha, hmem⟩ := lookup_owned hs.owned hid
  have hcount : (s.queue.map Prod.snd).count a = 1 :=
    count_eq_one_of_mem hs.addrs (mem_map_of_mem hmem)
  refine ⟨{ s with handles := s.handles.eraseP fun p => p.1 == h }, ?_,
    { hs with owned := owned_eraseP hs.owned h }, rfl⟩
  simp only [CacheState.dropHandle, ha, do_some, strongCount, hcount]
  rw [if_neg (by omega)]

end CacheState

end RCore.EasyFs
