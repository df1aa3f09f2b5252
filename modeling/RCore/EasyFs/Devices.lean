import Mathlib.Data.Nat.Pairing
import RCore.EasyFs.CacheRuns

/-!
# Several devices behind one cache

`BLOCK_CACHE_MANAGER` is one queue for all devices.  Its entries know their device and
are written back to it, but they are looked up by block number alone.  As long as no
block of another device has the number that is asked for, the cache behaves as one
device that has the blocks of all of them, and `merged` says so.
-/

namespace RCore.EasyFs

open List
open Option (map_eq_some_iff map_some)

open Function (update update_of_ne update_self)

/-- `struct BlockCache` with its `block_device`. -/
structure DeviceCache extends BlockCache where
  blockDevice : Nat

/-- The devices, the one cache manager over them, and the handles its callers hold. -/
structure DevicesState where
  /-- Contents of the devices. -/
  dev : Nat → Nat → Block
  heap : Nat → DeviceCache
  fresh : Nat
  /-- `BlockCacheManager::queue`: block number and address of the object. -/
  queue : List (Nat × Nat)
  /-- The device a handle was obtained for and the caller's name for it, and the address. -/
  handles : List ((Nat × Nat) × Nat)

namespace DevicesState

def init (dev : Nat → Nat → Block) : DevicesState where
  dev := dev
  heap := fun _ => ⟨⟨Block.zero, 0, false⟩, 0⟩
  fresh := 0
  queue := []
  handles := []

/-- `BlockCache::new`. -/
def newCache (s : DevicesState) (blockId blockDevice : Nat) : DeviceCache where
  cache := s.dev blockDevice blockId
  blockId := blockId
  modified := false
  blockDevice := blockDevice

/-- `BlockCache::sync` on the object at address `a`; also its `Drop`. -/
def sync (s : DevicesState) (a : Nat) : DevicesState :=
  if (s.heap a).modified then
    { s with
      heap := Function.update s.heap a { s.heap a with modified := false }
      dev := Function.update s.dev (s.heap a).blockDevice
        (Function.update (s.dev (s.heap a).blockDevice) (s.heap a).blockId (s.heap a).cache) }
  else s

/-- `Arc::strong_count`. -/
def strongCount (s : DevicesState) (a : Nat) : Nat :=
  (s.queue.map Prod.snd).count a + (s.handles.map Prod.snd).count a

/-- Make room in a full queue. -/
def substitute (s : DevicesState) : Option DevicesState :=
  match s.queue.find? fun p => s.strongCount p.2 == 1 with
  | some p =>
      some { s.sync p.2 with queue := s.queue.eraseP fun p => s.strongCount p.2 == 1 }
  | none => none  -- "Run out of BlockCache!"

/-- `BlockCacheManager::get_block_cache`: the device plays no part in the search. -/
def getBlockCache (s : DevicesState) (blockId blockDevice : Nat) : Option (Nat × DevicesState) :=
  match s.queue.find? fun p => p.1 == blockId with
  | some p => some (p.2, s)
  | none =>
      (if s.queue.length = blockCacheSize then s.substitute else some s).map fun s =>
        (s.fresh, { s with
          heap := Function.update s.heap s.fresh (s.newCache blockId blockDevice)
          fresh := s.fresh + 1
          queue := s.queue ++ [(blockId, s.fresh)] })

/-- Keep the result of `getBlockCache` under the name `h`. -/
def getHandle (s : DevicesState) (device h blockId : Nat) : Option DevicesState := do
  let (a, s) ← s.getBlockCache blockId device
  some { s with handles := ((device, h), a) :: s.handles }

def read (s : DevicesState) (device h : Nat) : Option Block := do
  let a ← s.handles.lookup (device, h)
  some (s.heap a).cache

def modify (s : DevicesState) (device h : Nat) (f : Block → Block) : Option DevicesState := do
  let a ← s.handles.lookup (device, h)
  let cache := { s.heap a with cache := f (s.heap a).cache, modified := true }
  some { s with heap := Function.update s.heap a cache }

/-- `BlockCache::sync` through the handle. -/
def syncHandle (s : DevicesState) (device h : Nat) : Option DevicesState := do
  let a ← s.handles.lookup (device, h)
  some (s.sync a)

/-- Drop the handle; with the last reference the object goes as well. -/
def dropHandle (s : DevicesState) (device h : Nat) : Option DevicesState := do
  let a ← s.handles.lookup (device, h)
  let s := { s with handles := s.handles.eraseP fun p => p.1 == (device, h) }
  some (if s.strongCount a = 0 then s.sync a else s)

/-- `block_cache_sync_all`. -/
def syncAll (s : DevicesState) : DevicesState :=
  s.queue.foldl (fun s p => s.sync p.2) s

end DevicesState

/-- One use of the cache; all but `syncAll` are made for one device. -/
inductive DeviceOp where
  | get (device h id : Nat)
  | read (device h : Nat)
  | modify (device h : Nat) (f : Block → Block)
  | sync (device h : Nat)
  | drop (device h : Nat)
  | syncAll

namespace DevicesState

/-- Carry out one operation; a `read` also returns the block. -/
def step (s : DevicesState) : DeviceOp → Option (Option Block × DevicesState)
  | .get device h id => (s.getHandle device h id).map fun s => (none, s)
  | .read device h => (s.read device h).map fun b => (some b, s)
  | .modify device h f => (s.modify device h f).map fun s => (none, s)
  | .sync device h => (s.syncHandle device h).map fun s => (none, s)
  | .drop device h => (s.dropHandle device h).map fun s => (none, s)
  | .syncAll => some (none, s.syncAll)

def runOps (s : DevicesState) : List DeviceOp → Option (List (Option Block) × DevicesState)
  | [] => some ([], s)
  | op :: ops => do
      let (out, s) ← s.step op
      let (outs, s) ← s.runOps ops
      some (out :: outs, s)

/-- The entry that is found for the number, if any, is one of the device. -/
def Own (s : DevicesState) (device id : Nat) : Prop :=
  ∀ p, s.queue.find? (fun p => p.1 == id) = some p → (s.heap p.2).blockDevice = device

/-- Every entry of a full queue is held by some caller. -/
def AllHeld (s : DevicesState) : Prop :=
  s.queue.length = blockCacheSize ∧ ∀ p ∈ s.queue, p.2 ∈ s.handles.map Prod.snd

instance (s : DevicesState) : Decidable s.AllHeld :=
  inferInstanceAs (Decidable (_ ∧ _))

instance (s : DevicesState) (device id : Nat) : Decidable (s.Own device id) :=
  inferInstanceAs (Decidable (∀ p ∈ s.queue.find? (fun p => p.1 == id),
    (s.heap p.2).blockDevice = device))

/-- What a caller may do, as for one device, and the entry it is given has to be one of the
device it asks for. -/
def Allowed (s : DevicesState) : DeviceOp → Prop
  | .get device h id =>
      (device, h) ∉ s.handles.map Prod.fst ∧ (id ∈ s.queue.map Prod.fst ∨ ¬s.AllHeld) ∧
        s.Own device id
  | .read device h | .modify device h _ | .sync device h | .drop device h =>
      (device, h) ∈ s.handles.map Prod.fst
  | .syncAll => True

instance (s : DevicesState) : (op : DeviceOp) → Decidable (s.Allowed op)
  | .get _ _ _ => inferInstanceAs (Decidable (_ ∧ _ ∧ _))
  | .read _ _ | .modify _ _ _ | .sync _ _ | .drop _ _ => inferInstanceAs (Decidable (_ ∈ _))
  | .syncAll => inferInstanceAs (Decidable True)

/-- Every operation of the sequence is allowed in the state it is made in. -/
def AllowedRun (s : DevicesState) : List DeviceOp → Prop
  | [] => True
  | op :: ops => s.Allowed op ∧
      match s.step op with
      | some (_, s) => s.AllowedRun ops
      | none => True

/-! ## One device with all blocks -/

/-- A queue entry under the number the block has among those of all devices. -/
def entry (s : DevicesState) (p : Nat × Nat) : Nat × Nat :=
  (Nat.pair (s.heap p.2).blockDevice p.1, p.2)

/-- The cache over one device that has the blocks of all devices; block `id` of `device` has the
number `Nat.pair device id`. -/
def merged (s : DevicesState) : CacheState where
  dev := fun n => s.dev n.unpair.1 n.unpair.2
  heap := fun a => { (s.heap a).toBlockCache with
    blockId := Nat.pair (s.heap a).blockDevice (s.heap a).blockId }
  fresh := s.fresh
  queue := s.queue.map s.entry
  handles := s.handles.map fun p => (Nat.pair p.1.1 p.1.2, p.2)

variable {s s' : DevicesState} {device h id a : Nat}

@[simp] theorem sync_fresh (s : DevicesState) (a : Nat) : (s.sync a).fresh = s.fresh := by
  unfold sync
  split <;> rfl

@[simp] theorem sync_blockDevice (s : DevicesState) (a a' : Nat) :
    ((s.sync a).heap a').blockDevice = (s.heap a').blockDevice := by
  unfold sync
  split
  · by_cases heq : a' = a
    · subst heq
      simp
    · simp [heq]
  · rfl

theorem merged_update (dev : Nat → Nat → Block) (device id : Nat) (b : Block) :
    (fun n : Nat =>
      update dev device (update (dev device) id b) n.unpair.1 n.unpair.2) =
    update (fun n : Nat => dev n.unpair.1 n.unpair.2) (Nat.pair device id) b := by
  funext n
  by_cases hn : n = Nat.pair device id
  · rw [hn, Nat.unpair_pair, update_self, update_self, update_self]
  · rw [update_of_ne hn]
    by_cases hdevice : n.unpair.1 = device
    · have hid : n.unpair.2 ≠ id := fun hid => hn (by rw [← hdevice, ← hid, Nat.pair_unpair])
      rw [hdevice, update_self, update_of_ne hid]
    · rw [update_of_ne hdevice]

theorem merged_heap (s : DevicesState) (a : Nat) (cache : DeviceCache) :
    (fun a' => { (update s.heap a cache a').toBlockCache with
      blockId := Nat.pair (update s.heap a cache a').blockDevice
        (update s.heap a cache a').blockId }) =
    update s.merged.heap a
      { cache.toBlockCache with blockId := Nat.pair cache.blockDevice cache.blockId } := by
  funext a'
  by_cases heq : a' = a
  · rw [heq, update_self, update_self]
  · rw [update_of_ne heq, update_of_ne heq]
    rfl

theorem map_entry_congr {queue : List (Nat × Nat)}
    (hsame : ∀ p ∈ queue, (s'.heap p.2).blockDevice = (s.heap p.2).blockDevice) :
    queue.map s'.entry = queue.map s.entry :=
  map_congr_left fun p hp => by rw [entry, entry, hsame p hp]

theorem merged_sync (s : DevicesState) (a : Nat) : (s.sync a).merged = s.merged.sync a := by
  by_cases hmodified : (s.heap a).modified = true
  · have hmodified' : (s.merged.heap a).modified = true := hmodified
    have hqueue := map_entry_congr (fun p (_ : p ∈ s.queue) => s.sync_blockDevice a p.2)
    rw [CacheState.sync, if_pos hmodified']
    rw [sync, if_pos hmodified] at hqueue ⊢
    simp only [merged, CacheState.mk.injEq, true_and, and_true]
    exact ⟨merged_update _ _ _ _, s.merged_heap _ _, hqueue⟩
  · have hmodified' : ¬(s.merged.heap a).modified = true := hmodified
    rw [sync, if_neg hmodified, CacheState.sync, if_neg hmodified']

theorem merged_strongCount (s : DevicesState) (a : Nat) :
    s.merged.strongCount a = s.strongCount a := by
  simp only [strongCount, CacheState.strongCount, merged, map_map]
  rfl

theorem merged_substitute (s : DevicesState) :
    s.merged.substitute = s.substitute.map merged := by
  have hqueue : s.merged.queue = s.queue.map s.entry := rfl
  have hcount : (fun p : Nat × Nat => s.strongCount p.2 == 1) ∘ s.entry =
      fun p => s.strongCount p.2 == 1 := rfl
  simp only [CacheState.substitute, substitute, merged_strongCount, hqueue, find?_map, hcount]
  cases s.queue.find? fun p => s.strongCount p.2 == 1 with
  | none => rfl
  | some p =>
    have hsync : s.merged.sync (s.entry p).2 = (s.sync p.2).merged := (s.merged_sync p.2).symm
    simp only [map_some, Option.some.injEq, hsync, eraseP_map, hcount]
    rw [← @map_entry_congr s (s.sync p.2) _ fun q _ => s.sync_blockDevice p.2 q.2]
    rfl

theorem find?_merged (hown : s.Own device id) :
    s.merged.queue.find? (fun p => p.1 == Nat.pair device id) =
      (s.queue.find? fun p => p.1 == id).map s.entry := by
  have hqueue : s.merged.queue = s.queue.map s.entry := rfl
  rw [hqueue, find?_map]
  congr 1
  cases hfind : s.queue.find? fun p => p.1 == id with
  | none =>
    rw [find?_eq_none] at hfind ⊢
    intro p hp hentry
    simp only [Function.comp_apply, entry, beq_iff_eq, Nat.pair_eq_pair] at hentry
    exact hfind p hp (by simpa using hentry.2)
  | some p =>
    have hdevice := hown p hfind
    obtain ⟨hid, before, after, hsplit, hbefore⟩ := find?_eq_some_iff_append.mp hfind
    simp only [beq_iff_eq] at hid
    refine find?_eq_some_iff_append.mpr ⟨?_, before, after, hsplit, fun q hq => ?_⟩
    · simp [entry, hdevice, hid]
    · have hne := hbefore q hq
      simp only [Bool.not_eq_true', beq_eq_false_iff_ne, Function.comp_apply, entry, ne_eq,
        Nat.pair_eq_pair, not_and] at hne ⊢
      exact fun _ => hne

theorem merged_push (s : DevicesState) (hfresh : ∀ p ∈ s.queue, p.2 < s.fresh) (device id : Nat) :
    merged { s with
      heap := update s.heap s.fresh (s.newCache id device)
      fresh := s.fresh + 1
      queue := s.queue ++ [(id, s.fresh)] } =
    { s.merged with
      heap := update s.merged.heap s.merged.fresh (s.merged.newCache (Nat.pair device id))
      fresh := s.merged.fresh + 1
      queue := s.merged.queue ++ [(Nat.pair device id, s.merged.fresh)] } := by
  have hqueue : (s.queue ++ [(id, s.fresh)]).map
      (entry { s with
        heap := update s.heap s.fresh (s.newCache id device)
        fresh := s.fresh + 1
        queue := s.queue ++ [(id, s.fresh)] }) =
      s.queue.map s.entry ++ [(Nat.pair device id, s.fresh)] := by
    rw [map_append, map_singleton]
    congr 1
    · refine map_entry_congr fun p hp => ?_
      simp only
      rw [update_of_ne (hfresh p hp).ne]
    · simp [entry, newCache]
  simp only [merged, CacheState.mk.injEq, true_and, and_true]
  refine ⟨?_, hqueue⟩
  have hheap := s.merged_heap s.fresh (s.newCache id device)
  have hcache : s.merged.newCache (Nat.pair device id) =
      { (s.newCache id device).toBlockCache with
        blockId := Nat.pair (s.newCache id device).blockDevice (s.newCache id device).blockId } := by
    simp [CacheState.newCache, newCache, merged]
  rw [← hcache] at hheap
  exact hheap

theorem substitute_eq_some (hsub : s.substitute = some s') :
    s'.fresh = s.fresh ∧ ∀ p ∈ s'.queue, p ∈ s.queue := by
  rw [substitute] at hsub
  cases hfind : s.queue.find? fun p => s.strongCount p.2 == 1 with
  | none => simp [hfind] at hsub
  | some p =>
    simp only [hfind, Option.some.injEq] at hsub
    subst hsub
    exact ⟨s.sync_fresh p.2, fun q hq => mem_of_mem_eraseP hq⟩

theorem merged_getBlockCache (hfresh : ∀ p ∈ s.queue, p.2 < s.fresh) (hown : s.Own device id) :
    s.merged.getBlockCache (Nat.pair device id) =
      (s.getBlockCache id device).map fun r => (r.1, r.2.merged) := by
  rw [CacheState.getBlockCache, find?_merged hown, getBlockCache]
  cases s.queue.find? fun p => p.1 == id with
  | some p => rfl
  | none =>
    have hlength : s.merged.queue.length = s.queue.length := length_map _
    simp only [Option.map_none, hlength, merged_substitute]
    by_cases hfull : s.queue.length = blockCacheSize
    · rw [if_pos hfull, if_pos hfull]
      cases hsub : s.substitute with
      | none => rfl
      | some s' =>
        obtain ⟨hfresh', hqueue⟩ := substitute_eq_some hsub
        simp only [map_some]
        rw [merged_push s' fun p hp => hfresh' ▸ hfresh p (hqueue p hp)]
        rfl
    · rw [if_neg hfull, if_neg hfull]
      simp only [map_some]
      rw [merged_push s hfresh]
      rfl

theorem lookup_merged (handles : List ((Nat × Nat) × Nat)) (device h : Nat) :
    (handles.map fun p => (Nat.pair p.1.1 p.1.2, p.2)).lookup (Nat.pair device h) =
      handles.lookup (device, h) := by
  induction handles with
  | nil => rfl
  | cons p handles ih =>
    have hkey : (Nat.pair device h == Nat.pair p.1.1 p.1.2) = ((device, h) == p.1) := by
      rw [Bool.eq_iff_iff, beq_iff_eq, beq_iff_eq, Nat.pair_eq_pair, Prod.ext_iff]
    rw [map_cons, lookup_cons, lookup_cons, hkey, ih]

theorem eraseP_merged (handles : List ((Nat × Nat) × Nat)) (device h : Nat) :
    (handles.map fun p => (Nat.pair p.1.1 p.1.2, p.2)).eraseP (fun p => p.1 == Nat.pair device h) =
      (handles.eraseP fun p => p.1 == (device, h)).map fun p => (Nat.pair p.1.1 p.1.2, p.2) := by
  rw [eraseP_map]
  congr 2
  funext p
  rw [Function.comp_apply, Bool.eq_iff_iff, beq_iff_eq, beq_iff_eq, Nat.pair_eq_pair, Prod.ext_iff]

theorem merged_read (s : DevicesState) (device h : Nat) :
    s.merged.read (Nat.pair device h) = s.read device h := by
  have hlookup : s.merged.handles.lookup (Nat.pair device h) = s.handles.lookup (device, h) :=
    lookup_merged _ _ _
  rw [CacheState.read, read, hlookup]
  rfl

theorem merged_modify (s : DevicesState) (device h : Nat) (f : Block → Block) :
    s.merged.modify (Nat.pair device h) f = (s.modify device h f).map merged := by
  have hlookup : s.merged.handles.lookup (Nat.pair device h) = s.handles.lookup (device, h) :=
    lookup_merged _ _ _
  rw [CacheState.modify, modify, hlookup]
  cases s.handles.lookup (device, h) with
  | none => rfl
  | some a =>
    let cache : DeviceCache := { s.heap a with cache := f (s.heap a).cache, modified := true }
    have hqueue : s.queue.map (entry { s with heap := update s.heap a cache }) =
        s.queue.map s.entry := by
      refine map_entry_congr fun p _ => ?_
      by_cases heq : p.2 = a
      · simp [heq, cache]
      · simp [heq]
    simp only [do_some, map_some, Option.some.injEq]
    symm
    simp only [merged, CacheState.mk.injEq, true_and, and_true]
    exact ⟨s.merged_heap a cache, hqueue⟩

theorem merged_dropHandle (s : DevicesState) (device h : Nat) :
    s.merged.dropHandle (Nat.pair device h) = (s.dropHandle device h).map merged := by
  have hlookup : s.merged.handles.lookup (Nat.pair device h) = s.handles.lookup (device, h) :=
    lookup_merged _ _ _
  have herase : { s.merged with
        handles := s.merged.handles.eraseP fun p => p.1 == Nat.pair device h } =
      merged { s with handles := s.handles.eraseP fun p => p.1 == (device, h) } := by
    simp only [merged, eraseP_merged, CacheState.mk.injEq, true_and, and_true]
    rfl
  rw [CacheState.dropHandle, dropHandle, hlookup]
  cases s.handles.lookup (device, h) with
  | none => rfl
  | some a =>
    simp only [do_some, map_some, Option.some.injEq, herase, merged_strongCount]
    split
    · rw [merged_sync]
    · rfl

theorem merged_foldl_sync (l : List (Nat × Nat)) (f : Nat × Nat → Nat × Nat)
    (hf : ∀ p, (f p).2 = p.2) (s : DevicesState) :
    (l.map f).foldl (fun s p => s.sync p.2) s.merged =
      (l.foldl (fun s p => s.sync p.2) s).merged := by
  induction l generalizing s with
  | nil => rfl
  | cons p l ih =>
    rw [map_cons, foldl_cons, foldl_cons, hf, ← merged_sync, ih]

theorem merged_syncAll (s : DevicesState) : s.merged.syncAll = s.syncAll.merged :=
  merged_foldl_sync s.queue s.entry (fun _ => rfl) s

end DevicesState

/-! ## What the callers see -/

namespace DeviceOp

/-- The operation on the array of blocks of the device, if it is made for it.  Writing back does
nothing to the array. -/
def on (device : Nat) : DeviceOp → Option CacheOp
  | .get d h id => if d = device then some (.get h id) else none
  | .read d h => if d = device then some (.read h) else none
  | .modify d h f => if d = device then some (.modify h f) else none
  | .drop d h => if d = device then some (.drop h) else none
  | .sync _ _ | .syncAll => none

/-- The operation on the one device that has all blocks. -/
def all : DeviceOp → CacheOp
  | .get d h id => .get (Nat.pair d h) (Nat.pair d id)
  | .read d h => .read (Nat.pair d h)
  | .modify d h f => .modify (Nat.pair d h) f
  | .drop d h => .drop (Nat.pair d h)
  | .sync _ _ | .syncAll => .syncAll

end DeviceOp

/-- The operations made for the device. -/
def opsFor (device : Nat) (ops : List DeviceOp) : List CacheOp :=
  ops.filterMap (DeviceOp.on device)

/-- What the operations made for the device return. -/
def outsFor (device : Nat) (ops : List DeviceOp) (outs : List (Option Block)) :
    List (Option Block) :=
  (ops.zip outs).filterMap fun p => (p.1.on device).map fun _ => p.2

/-- The array of blocks of the device after the operations made for it, which is all that it
depends on. -/
def arrayFor (dev : Nat → Nat → Block) (device : Nat) (ops : List DeviceOp) : Logical :=
  (Logical.runOps ⟨dev device, []⟩ (opsFor device ops)).2

namespace DevicesState

variable {s s' : DevicesState} {op : DeviceOp} {l : Logical}

theorem mem_names_merged {device h : Nat} :
    Nat.pair device h ∈ s.merged.handles.map Prod.fst ↔ (device, h) ∈ s.handles.map Prod.fst := by
  simp only [merged, map_map, mem_map, Function.comp_apply, Nat.pair_eq_pair]
  constructor
  · rintro ⟨p, hp, hdevice, hname⟩
    exact ⟨p, hp, Prod.ext hdevice hname⟩
  · rintro ⟨p, hp, heq⟩
    exact ⟨p, hp, by rw [heq], by rw [heq]⟩

theorem allHeld_merged : s.merged.AllHeld ↔ s.AllHeld := by
  simp only [CacheState.AllHeld, AllHeld, merged, length_map, map_map, mem_map,
    forall_exists_index, and_imp, forall_apply_eq_imp_iff₂]
  rfl

theorem Own.mem_merged {device id : Nat} (hown : s.Own device id)
    (hid : id ∈ s.queue.map Prod.fst) : Nat.pair device id ∈ s.merged.queue.map Prod.fst := by
  obtain ⟨q, hq, hqid⟩ := mem_map.mp hid
  obtain ⟨p, hfind⟩ : ∃ p, s.queue.find? (fun p => p.1 == id) = some p := by
    rw [← Option.isSome_iff_exists, find?_isSome]
    exact ⟨q, hq, by simp [hqid]⟩
  have hfind' := find?_merged hown
  rw [hfind, map_some] at hfind'
  have hkey : (s.entry p).1 = Nat.pair device id := by simpa using find?_some hfind'
  exact hkey ▸ mem_map_of_mem (mem_of_find?_eq_some hfind')

theorem Allowed.all (hop : s.Allowed op) : s.merged.Allowed op.all := by
  cases op with
  | get device h id =>
    obtain ⟨hname, hroom, hown⟩ := hop
    refine ⟨fun hmem => hname (mem_names_merged.mp hmem), ?_⟩
    rcases hroom with hid | hfree
    · exact .inl (hown.mem_merged hid)
    · exact .inr fun hheld => hfree (allHeld_merged.mp hheld)
  | read device h => exact mem_names_merged.mpr hop
  | modify device h f => exact mem_names_merged.mpr hop
  | sync device h => trivial
  | drop device h => exact mem_names_merged.mpr hop
  | syncAll => trivial

theorem merged_step (hfresh : ∀ p ∈ s.queue, p.2 < s.fresh) (hop : s.Allowed op)
    (hsync : ∀ device h, op ≠ .sync device h) :
    s.merged.step op.all = (s.step op).map fun r => (r.1, r.2.merged) := by
  cases op with
  | get device h id =>
    have hget := merged_getBlockCache hfresh hop.2.2
    simp only [CacheState.step, DeviceOp.all, CacheState.getHandle, hget, step, getHandle]
    cases s.getBlockCache id device with
    | none => rfl
    | some r => rfl
  | read device h =>
    simp only [CacheState.step, DeviceOp.all, merged_read, step, Option.map_map]
    rfl
  | modify device h f =>
    simp only [CacheState.step, DeviceOp.all, merged_modify, step, Option.map_map]
    rfl
  | sync device h => exact absurd rfl (hsync device h)
  | drop device h =>
    simp only [CacheState.step, DeviceOp.all, merged_dropHandle, step, Option.map_map]
    rfl
  | syncAll =>
    simp [CacheState.step, DeviceOp.all, merged_syncAll, step]

theorem fresh_of_coherent (hs : s.merged.Coherent l.content l.owners) :
    ∀ p ∈ s.queue, p.2 < s.fresh :=
  fun p hp => hs.fresh (s.entry p) (mem_map_of_mem hp)

theorem lookup_of_mem (hs : s.merged.Coherent l.content l.owners) {device h : Nat}
    (hmem : (device, h) ∈ s.handles.map Prod.fst) :
    ∃ p ∈ s.queue, s.handles.lookup (device, h) = some p.2 := by
  obtain ⟨n, hn⟩ := hs.lookup_of_mem (mem_names_merged.mpr hmem)
  obtain ⟨a, hlookup, hqueue⟩ := CacheState.lookup_owned hs.owned hn
  obtain ⟨p, hp, heq⟩ := mem_map.mp hqueue
  refine ⟨p, hp, ?_⟩
  rw [← lookup_merged]
  exact hlookup.trans (congrArg some (congrArg Prod.snd heq).symm)

theorem step_coherent (hs : s.merged.Coherent l.content l.owners) (hop : s.Allowed op) :
    ∃ s', s.step op = some ((l.step op.all).1, s') ∧
      s'.merged.Coherent (l.step op.all).2.content (l.step op.all).2.owners := by
  by_cases hsync : ∃ device h, op = .sync device h
  · obtain ⟨device, h, rfl⟩ := hsync
    obtain ⟨p, hp, hlookup⟩ := lookup_of_mem hs hop
    refine ⟨s.sync p.2, ?_, ?_⟩
    · simp [step, syncHandle, hlookup, DeviceOp.all, Logical.step]
    · have hmem : s.entry p ∈ s.merged.queue := mem_map_of_mem hp
      have hsynced := hs.sync hmem
      rw [merged_sync]
      exact hsynced
  · have hmerged := merged_step (fresh_of_coherent hs) hop
      fun device h heq => hsync ⟨device, h, heq⟩
    obtain ⟨t, ht, hco⟩ := CacheState.step_coherent hs hop.all
    rw [hmerged] at ht
    obtain ⟨⟨out, s'⟩, hstep, heq⟩ := map_eq_some_iff.mp ht
    obtain ⟨rfl, rfl⟩ := Prod.mk.inj heq
    exact ⟨s', hstep, hco⟩

end DevicesState

/-! ## The part of one device -/

namespace Logical

/-- The handles for one device, out of those for all devices. -/
def ownersOf (device : Nat) (owners : List (Nat × Nat)) : List (Nat × Nat) :=
  owners.filterMap fun o =>
    if o.1.unpair.1 = device then some (o.1.unpair.2, o.2.unpair.2) else none

/-- The array of blocks of one device, out of that of all devices. -/
def part (l : Logical) (device : Nat) : Logical where
  content := fun id => l.content (Nat.pair device id)
  owners := ownersOf device l.owners

/-- Handles stand for blocks of the device they were obtained for. -/
def Matched (l : Logical) : Prop :=
  ∀ o ∈ l.owners, o.2.unpair.1 = o.1.unpair.1

variable {l : Logical} {device h d : Nat} {o : Nat × Nat}

theorem ownersOf_cons_self (owners : List (Nat × Nat)) (device h n : Nat) :
    ownersOf device ((Nat.pair device h, n) :: owners) =
      (h, n.unpair.2) :: ownersOf device owners := by
  simp [ownersOf]

theorem ownersOf_cons_other (owners : List (Nat × Nat)) (hne : o.1.unpair.1 ≠ device) :
    ownersOf device (o :: owners) = ownersOf device owners := by
  simp [ownersOf, hne]

theorem name_cases (o : Nat × Nat) (device : Nat) :
    (∃ h n, o = (Nat.pair device h, n)) ∨ o.1.unpair.1 ≠ device := by
  by_cases hdevice : o.1.unpair.1 = device
  · exact .inl ⟨o.1.unpair.2, o.2, by rw [← hdevice, Nat.pair_unpair]⟩
  · exact .inr hdevice

theorem lookup_ownersOf (owners : List (Nat × Nat)) (device h : Nat) :
    (ownersOf device owners).lookup h =
      (owners.lookup (Nat.pair device h)).map fun n => n.unpair.2 := by
  induction owners with
  | nil => rfl
  | cons o owners ih =>
    rcases name_cases o device with ⟨name, n, rfl⟩ | hne
    · have hkey : (Nat.pair device h == Nat.pair device name) = (h == name) := by
        rw [Bool.eq_iff_iff, beq_iff_eq, beq_iff_eq, Nat.pair_eq_pair]
        exact and_iff_right rfl
      rw [ownersOf_cons_self, lookup_cons, lookup_cons, hkey]
      cases h == name with
      | true => rfl
      | false => exact ih
    · have hkey : (Nat.pair device h == o.1) = false := by
        rw [beq_eq_false_iff_ne]
        rintro heq
        rw [← heq, Nat.unpair_pair] at hne
        exact hne rfl
      rw [ownersOf_cons_other owners hne, lookup_cons, hkey]
      exact ih

theorem eraseP_ownersOf_self (owners : List (Nat × Nat)) (device h : Nat) :
    ownersOf device (owners.eraseP fun p => p.1 == Nat.pair device h) =
      (ownersOf device owners).eraseP fun p => p.1 == h := by
  induction owners with
  | nil => rfl
  | cons o owners ih =>
    rcases name_cases o device with ⟨name, n, rfl⟩ | hne
    · have hkey : (Nat.pair device name == Nat.pair device h) = (name == h) := by
        rw [Bool.eq_iff_iff, beq_iff_eq, beq_iff_eq, Nat.pair_eq_pair]
        exact and_iff_right rfl
      rw [eraseP_cons, hkey, ownersOf_cons_self, eraseP_cons]
      cases name == h with
      | true => rfl
      | false => exact (ownersOf_cons_self _ _ _ _).trans (congrArg _ ih)
    · have hkey : (o.1 == Nat.pair device h) = false := by
        rw [beq_eq_false_iff_ne]
        rintro heq
        rw [heq, Nat.unpair_pair] at hne
        exact hne rfl
      rw [eraseP_cons, hkey, ownersOf_cons_other owners hne]
      exact (ownersOf_cons_other _ hne).trans ih

theorem eraseP_ownersOf_other (owners : List (Nat × Nat)) (hne : d ≠ device) :
    ownersOf device (owners.eraseP fun p => p.1 == Nat.pair d h) = ownersOf device owners := by
  induction owners with
  | nil => rfl
  | cons o owners ih =>
    rw [eraseP_cons]
    by_cases hkey : o.1 = Nat.pair d h
    · have hother : o.1.unpair.1 ≠ device := by rwa [hkey, Nat.unpair_pair]
      rw [ownersOf_cons_other owners hother, hkey, beq_self_eq_true]
      rfl
    · rw [beq_eq_false_iff_ne.mpr hkey]
      rcases name_cases o device with ⟨name, n, rfl⟩ | hother
      · exact (ownersOf_cons_self _ _ _ _).trans ((congrArg _ ih).trans
          (ownersOf_cons_self _ _ _ _).symm)
      · exact (ownersOf_cons_other _ hother).trans (ih.trans (ownersOf_cons_other _ hother).symm)

theorem lookup_matched (hmatched : l.Matched) {n : Nat}
    (hn : l.owners.lookup (Nat.pair device h) = some n) : n.unpair.1 = device := by
  obtain ⟨before, after, heq, -⟩ := lookup_eq_some_iff.mp hn
  have hsame := hmatched (Nat.pair device h, n) (by rw [heq]; simp)
  rwa [Nat.unpair_pair] at hsame

theorem Matched.step (hmatched : l.Matched) (op : DeviceOp) : (l.step op.all).2.Matched := by
  cases op with
  | get d h id =>
    intro o ho
    rcases mem_cons.mp ho with rfl | ho
    · rw [Nat.unpair_pair, Nat.unpair_pair]
    · exact hmatched o ho
  | read d h => exact hmatched
  | modify d h f =>
    simp only [DeviceOp.all, Logical.step]
    split <;> exact hmatched
  | sync d h => exact hmatched
  | drop d h => exact fun o ho => hmatched o (mem_of_mem_eraseP ho)
  | syncAll => exact hmatched

theorem part_step_other (hmatched : l.Matched) {op : DeviceOp} (hop : op.on device = none) :
    (l.step op.all).2.part device = l.part device := by
  cases op with
  | get d h id =>
    have hne : d ≠ device := by simpa [DeviceOp.on] using hop
    have hother : (Nat.pair d h, Nat.pair d id).1.unpair.1 ≠ device := by rwa [Nat.unpair_pair]
    simp [part, DeviceOp.all, step, ownersOf_cons_other _ hother]
  | read d h => rfl
  | modify d h f =>
    have hne : d ≠ device := by simpa [DeviceOp.on] using hop
    simp only [DeviceOp.all, step]
    cases hn : l.owners.lookup (Nat.pair d h) with
    | none => rfl
    | some n =>
      have hdevice := lookup_matched hmatched hn
      simp only [part, Logical.mk.injEq, and_true]
      funext id
      rw [update_of_ne]
      rintro rfl
      rw [Nat.unpair_pair] at hdevice
      exact hne hdevice.symm
  | sync d h => rfl
  | drop d h =>
    have hne : d ≠ device := by simpa [DeviceOp.on] using hop
    simp [part, DeviceOp.all, step, eraseP_ownersOf_other _ hne]
  | syncAll => rfl

/-- An operation for the device is one on its array. -/
theorem part_step_self (hmatched : l.Matched) {op : DeviceOp} {cop : CacheOp}
    (hop : op.on device = some cop) :
    (l.part device).step cop = ((l.step op.all).1, (l.step op.all).2.part device) := by
  cases op with
  | get d h id =>
    obtain ⟨rfl, rfl⟩ : d = device ∧ CacheOp.get h id = cop := by simpa [DeviceOp.on] using hop
    simp [part, DeviceOp.all, step, ownersOf_cons_self]
  | read d h =>
    obtain ⟨rfl, rfl⟩ : d = device ∧ CacheOp.read h = cop := by simpa [DeviceOp.on] using hop
    simp only [part, DeviceOp.all, step, lookup_ownersOf, Option.map_map, Prod.mk.injEq, and_true]
    cases hn : l.owners.lookup (Nat.pair d h) with
    | none => rfl
    | some n =>
      simp [← lookup_matched hmatched hn]
  | modify d h f =>
    obtain ⟨rfl, rfl⟩ : d = device ∧ CacheOp.modify h f = cop := by
      simpa [DeviceOp.on] using hop
    simp only [part, DeviceOp.all, step, lookup_ownersOf]
    cases hn : l.owners.lookup (Nat.pair d h) with
    | none => rfl
    | some n =>
      have hpair : Nat.pair d n.unpair.2 = n := by
        rw [← lookup_matched hmatched hn, Nat.pair_unpair]
      simp only [map_some, hpair, Prod.mk.injEq, Logical.mk.injEq, and_true, true_and]
      funext id
      by_cases hid : id = n.unpair.2
      · rw [hid, hpair, update_self, update_self]
      · rw [update_of_ne hid, update_of_ne]
        rintro heq
        exact hid (by rw [← heq, Nat.unpair_pair])
  | sync d h => simp [DeviceOp.on] at hop
  | drop d h =>
    obtain ⟨rfl, rfl⟩ : d = device ∧ CacheOp.drop h = cop := by simpa [DeviceOp.on] using hop
    simp [part, DeviceOp.all, step, eraseP_ownersOf_self]
  | syncAll => simp [DeviceOp.on] at hop

end Logical

/-! ## What is written to the devices -/

namespace CacheState

variable {s s' : CacheState} {c : Nat → Block} {o : List (Nat × Nat)}

theorem Coherent.substitute_dev (hs : Coherent s c o) (hsub : s.substitute = some s') (n : Nat) :
    s'.dev n = s.dev n ∨ s'.dev n = c n := by
  rw [CacheState.substitute] at hsub
  cases hfind : s.queue.find? fun p => s.strongCount p.2 == 1 with
  | none => simp [hfind] at hsub
  | some p =>
    simp only [hfind, Option.some.injEq] at hsub
    subst hsub
    have hdev := hs.sync_dev (mem_of_find?_eq_some hfind) n
    simp only [hdev]
    split
    · rename_i heq
      exact .inr (by rw [heq])
    · exact .inl rfl

/-- Whatever an operation writes to the device is the logical contents of the block. -/
theorem Coherent.step_dev (hs : Coherent s c o) {op : CacheOp} (hop : s.Allowed op)
    {out : Option Block} (hstep : s.step op = some (out, s')) (n : Nat) :
    s'.dev n = s.dev n ∨ s'.dev n = c n := by
  cases op with
  | get h id =>
    obtain ⟨t, hhandle, heq⟩ := map_eq_some_iff.mp hstep
    obtain ⟨-, rfl⟩ := Prod.mk.inj heq
    obtain ⟨⟨a, t⟩, hget, heq⟩ := Option.bind_eq_some_iff.mp hhandle
    cases heq
    simp only
    unfold CacheState.getBlockCache at hget
    split at hget
    · cases hget
      exact .inl rfl
    · obtain ⟨t, hroom, heq⟩ := map_eq_some_iff.mp hget
      obtain ⟨-, rfl⟩ := Prod.mk.inj heq
      split at hroom
      · exact hs.substitute_dev hroom n
      · exact .inl (by rw [Option.some.inj hroom])
  | read h =>
    obtain ⟨_, -, heq⟩ := map_eq_some_iff.mp hstep
    exact .inl (by rw [(Prod.mk.inj heq).2])
  | modify h f =>
    obtain ⟨id, hid⟩ := hs.lookup_of_mem hop
    obtain ⟨t, hmodify, -, hdev⟩ := hs.modify hid f
    simp only [step, hmodify, map_some, Option.some.injEq, Prod.mk.injEq] at hstep
    exact .inl (by rw [← hstep.2, hdev])
  | drop h =>
    obtain ⟨id, hid⟩ := hs.lookup_of_mem hop
    obtain ⟨t, hdrop, -, hdev⟩ := hs.dropHandle hid
    simp only [step, hdrop, map_some, Option.some.injEq, Prod.mk.injEq] at hstep
    exact .inl (by rw [← hstep.2, hdev])
  | syncAll =>
    simp only [step, Option.some.injEq, Prod.mk.injEq] at hstep
    exact .inr (by rw [← hstep.2]; exact hs.syncAll.2 n)

end CacheState

namespace DevicesState

variable {s s' : DevicesState} {l : Logical}

theorem step_dev (hs : s.merged.Coherent l.content l.owners) {op : DeviceOp} (hop : s.Allowed op)
    {out : Option Block} (hstep : s.step op = some (out, s')) (device id : Nat) :
    s'.dev device id = s.dev device id ∨ s'.dev device id = (l.part device).content id := by
  have hmerged : ∀ t : DevicesState, t.merged.dev (Nat.pair device id) = t.dev device id := by
    intro t
    simp [merged]
  rw [← hmerged, ← hmerged]
  by_cases hsync : ∃ d h, op = .sync d h
  · obtain ⟨d, h, rfl⟩ := hsync
    obtain ⟨p, hp, hlookup⟩ := lookup_of_mem hs hop
    simp only [step, syncHandle, hlookup, do_some, map_some, Option.some.injEq,
      Prod.mk.injEq] at hstep
    have hmem : s.entry p ∈ s.merged.queue := mem_map_of_mem hp
    have hdev := hs.sync_dev hmem (Nat.pair device id)
    rw [← hstep.2, merged_sync]
    by_cases hid : Nat.pair device id = (s.entry p).1
    · rw [if_pos hid, ← hid] at hdev
      exact .inr hdev
    · rw [if_neg hid] at hdev
      exact .inl hdev
  · have hstep' := merged_step (fresh_of_coherent hs) hop fun d h heq => hsync ⟨d, h, heq⟩
    rw [hstep, map_some] at hstep'
    exact hs.step_dev hop.all hstep' (Nat.pair device id)

theorem runOps_coherent (hs : s.merged.Coherent l.content l.owners) (hmatched : l.Matched)
    {ops : List DeviceOp} (hops : s.AllowedRun ops) :
    ∃ outs s', ∃ l' : Logical, s.runOps ops = some (outs, s') ∧
      s'.merged.Coherent l'.content l'.owners ∧
      l'.Matched ∧ ∀ device,
        (l.part device).runOps (opsFor device ops) = (outsFor device ops outs, l'.part device) := by
  induction ops generalizing s l with
  | nil => exact ⟨[], s, l, rfl, hs, hmatched, fun device => rfl⟩
  | cons op ops ih =>
    obtain ⟨hop, hrest⟩ := hops
    obtain ⟨s₁, hstep, hs₁⟩ := step_coherent hs hop
    rw [hstep] at hrest
    obtain ⟨outs, s', l', hrun, hs', hmatched', hparts⟩ := ih hs₁ (hmatched.step op) hrest
    refine ⟨(l.step op.all).1 :: outs, s', l', ?_, hs', hmatched', fun device => ?_⟩
    · simp [runOps, hstep, hrun]
    · have hparts := hparts device
      rw [opsFor, outsFor] at hparts ⊢
      rw [filterMap_cons, zip_cons_cons, filterMap_cons]
      cases hon : op.on device with
      | none =>
        rw [Logical.part_step_other hmatched hon] at hparts
        exact hparts
      | some cop =>
        simp [Logical.runOps, Logical.part_step_self hmatched hon, hparts]

theorem merged_init (dev : Nat → Nat → Block) :
    (init dev).merged.Coherent (fun n => dev n.unpair.1 n.unpair.2) [] :=
  { CacheState.coherent_init fun n => dev n.unpair.1 n.unpair.2 with }

end DevicesState

open DevicesState in
/-- **Devices behind one cache.**  As long as the entry that is found for a number is one of the
device that is asked for: the operations made for a device return what they return on the array
of its own blocks, whatever is done for other devices; its handles show its own blocks; what is
written to it is the contents of its own blocks, and writing everything back brings it up to date.
An object that is returned is one of the device exactly under this condition. -/
theorem devices_isolated (dev : Nat → Nat → Block) (ops : List DeviceOp)
    (hops : (init dev).AllowedRun ops) :
    ∃ outs s, (init dev).runOps ops = some (outs, s) ∧
      (∀ device,
        outsFor device ops outs = (Logical.runOps ⟨dev device, []⟩ (opsFor device ops)).1 ∧
        (∀ h id, (arrayFor dev device ops).owners.lookup h = some id →
          s.read device h = some ((arrayFor dev device ops).content id)) ∧
        (∀ op out s', s.Allowed op → s.step op = some (out, s') → ∀ id,
          s'.dev device id = s.dev device id ∨
            s'.dev device id = (arrayFor dev device ops).content id) ∧
        ∀ id, s.syncAll.dev device id = (arrayFor dev device ops).content id) ∧
      ∀ device id a s', s.getBlockCache id device = some (a, s') →
        ((s'.heap a).blockDevice = device ↔ s.Own device id) := by
  have hstart : (⟨fun n => dev n.unpair.1 n.unpair.2, []⟩ : Logical).Matched := by
    intro o ho
    cases ho
  obtain ⟨outs, s, l, hrun, hs, hmatched, hparts⟩ :=
    runOps_coherent (l := ⟨fun n => dev n.unpair.1 n.unpair.2, []⟩) (merged_init dev) hstart hops
  refine ⟨outs, s, hrun, fun device => ?_, fun device id a s' hget => ?_⟩
  · have hpart : Logical.runOps ⟨dev device, []⟩ (opsFor device ops) =
        (outsFor device ops outs, l.part device) := by
      rw [← hparts device]
      simp [Logical.part, Logical.ownersOf]
    rw [arrayFor, hpart]
    refine ⟨rfl, fun h id hid => ?_, fun op out s' hop hstep id => step_dev hs hop hstep device id,
      fun id => ?_⟩
    · rw [Logical.part, Logical.lookup_ownersOf] at hid
      obtain ⟨n, hn, rfl⟩ := Option.map_eq_some_iff.mp hid
      have hread := hs.read hn
      rw [merged_read] at hread
      have hpair : Nat.pair device n.unpair.2 = n := by
        rw [← Logical.lookup_matched hmatched hn, Nat.pair_unpair]
      simp [hread, Logical.part, hpair]
    · have hclean := hs.syncAll.2 (Nat.pair device id)
      rw [merged_syncAll] at hclean
      simpa only [merged, Nat.unpair_pair, Logical.part] using hclean
  · unfold getBlockCache at hget
    cases hfind : s.queue.find? fun p => p.1 == id with
    | some p =>
      simp only [hfind, Option.some.injEq, Prod.mk.injEq] at hget
      obtain ⟨rfl, rfl⟩ := hget
      simp [Own, hfind]
    | none =>
      simp only [hfind] at hget
      obtain ⟨t, -, heq⟩ := Option.map_eq_some_iff.mp hget
      obtain ⟨rfl, rfl⟩ := Prod.mk.inj heq
      simp [Own, hfind, newCache]

/-- Two devices with different block numbers. -/
theorem devices_isolated_two : ∃ s,
    (DevicesState.init fun _ _ => Block.zero).runOps
      [.get 0 0 5, .get 1 0 6, .modify 1 0 fun b => b.setWord 0 7, .read 0 0] =
      some ([none, none, none, some Block.zero], s) ∧
    s.syncAll.dev 0 5 = Block.zero ∧ s.syncAll.dev 1 6 = Block.zero.setWord 0 7 := by
  obtain ⟨outs, s, hrun, hparts, -⟩ := devices_isolated (fun _ _ => Block.zero)
    [.get 0 0 5, .get 1 0 6, .modify 1 0 fun b => b.setWord 0 7, .read 0 0]
    ⟨by decide, by decide, by decide, by decide, trivial⟩
  have houts : outs = [none, none, none, some Block.zero] := by
    have hsome := congrArg (Option.map Prod.fst) hrun
    exact (Option.some.inj hsome).symm
  exact ⟨s, houts ▸ hrun, (hparts 0).2.2.2 5, (hparts 1).2.2.2 6⟩

theorem share_block (b : Nat → Block) : ∃ s,
    (DevicesState.init fun device _ => b device).runOps
      [.get 0 0 5, .get 1 0 5, .read 1 0, .modify 1 0 fun _ => b 2] =
      some ([none, none, some (b 0), none], s) ∧
    s.syncAll.dev 0 5 = b 2 ∧ s.syncAll.dev 1 5 = b 1 :=
  ⟨_, rfl, rfl, rfl⟩

/-- The second device is shown the block of the first one, and what is written for the second
goes to the first. -/
theorem devices_share_block : ∃ dev ops outs s,
    (DevicesState.init dev).runOps ops = some (outs, s) ∧
    outsFor 1 ops outs ≠ (Logical.runOps ⟨dev 1, []⟩ (opsFor 1 ops)).1 ∧
    s.syncAll.dev 0 5 ≠ (arrayFor dev 0 ops).content 5 ∧
    s.syncAll.dev 1 5 ≠ (arrayFor dev 1 ops).content 5 := by
  obtain ⟨b, hb⟩ : ∃ b : Nat → Block, b 0 ≠ b 1 ∧ b 2 ≠ b 0 ∧ b 1 ≠ b 2 := by
    have hbyte : ∀ n : Nat, (Block.ofBytes fun _ => UInt8.ofNat n).byte 0 = UInt8.ofNat n :=
      fun n => Block.byte_ofBytes _ (by decide)
    have hne : ∀ m n : Nat, UInt8.ofNat m ≠ UInt8.ofNat n →
        (Block.ofBytes fun _ => UInt8.ofNat m) ≠ Block.ofBytes fun _ => UInt8.ofNat n :=
      fun m n hmn heq => hmn (by rw [← hbyte m, heq, hbyte n])
    exact ⟨fun n => Block.ofBytes fun _ => UInt8.ofNat n, hne 0 1 (by decide), hne 2 0 (by decide),
      hne 1 2 (by decide)⟩
  obtain ⟨s, hrun, hfirst, hsecond⟩ := share_block b
  refine ⟨_, _, _, s, hrun, ?_, ?_, ?_⟩
  · intro heq
    have hread : [none, some (b 0), none] = [none, some (b 1), none] := heq
    exact hb.1 (by simpa using hread)
  · rw [hfirst]
    exact hb.2.1
  · rw [hsecond]
    exact hb.2.2

end RCore.EasyFs
