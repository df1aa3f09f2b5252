import RCore.EasyFs.BlockCache
import RCore.Lib.LockedStore

/-!
# Runs over the block cache

Two kinds of caller use the cache.  A sequence of `CacheOp`s takes, uses and
drops handles in any order, several on one block included; `cache_transparent`
says that it cannot tell the cache from an array of blocks.  The file system
itself is a `Prog` whose handles are locked for as long as they are held; it
runs on the cache through `cacheBackend`, and `cache_simulation` lets all
reasoning about it happen on the plain store.
-/

namespace RCore.EasyFs

open RCore.Lib.LockedStore List

variable {s : CacheState} {v : View Block} {id : Nat}

/-! ## Free use of handles -/

/-- One use of the cache by a caller that names its handles. -/
inductive CacheOp where
  | get (h id : Nat)
  | read (h : Nat)
  | modify (h : Nat) (f : Block → Block)
  | drop (h : Nat)
  | syncAll

namespace CacheState

/-- Carry out one operation; a `read` also returns the block. -/
def step (s : CacheState) : CacheOp → Option (Option Block × CacheState)
  | .get h id => (s.getHandle h id).map fun s => (none, s)
  | .read h => (s.read h).map fun b => (some b, s)
  | .modify h f => (s.modify h f).map fun s => (none, s)
  | .drop h => (s.dropHandle h).map fun s => (none, s)
  | .syncAll => some (none, s.syncAll)

/-- Carry out a sequence of operations and collect what the reads return. -/
def runOps (s : CacheState) : List CacheOp → Option (List (Option Block) × CacheState)
  | [] => some ([], s)
  | op :: ops => do
      let (out, s) ← s.step op
      let (outs, s) ← s.runOps ops
      some (out :: outs, s)

/-- Every entry of a full queue is held by some caller. -/
def AllHeld (s : CacheState) : Prop :=
  s.queue.length = blockCacheSize ∧ ∀ p ∈ s.queue, p.2 ∈ s.handles.map Prod.snd

instance (s : CacheState) : Decidable s.AllHeld :=
  inferInstanceAs (Decidable (_ ∧ _))

/-- What a caller may do: name a new handle by a name that is not in use, not ask
for an uncached block while all entries are held, and use handles it holds. -/
def Allowed (s : CacheState) : CacheOp → Prop
  | .get h id => h ∉ s.handles.map Prod.fst ∧ (id ∈ s.queue.map Prod.fst ∨ ¬s.AllHeld)
  | .read h | .modify h _ | .drop h => h ∈ s.handles.map Prod.fst
  | .syncAll => True

instance (s : CacheState) : (op : CacheOp) → Decidable (s.Allowed op)
  | .get _ _ => inferInstanceAs (Decidable (_ ∧ _))
  | .read _ | .modify _ _ | .drop _ => inferInstanceAs (Decidable (_ ∈ _))
  | .syncAll => inferInstanceAs (Decidable True)

/-- Every operation of the sequence is allowed in the state it is made in. -/
def AllowedRun (s : CacheState) : List CacheOp → Prop
  | [] => True
  | op :: ops => s.Allowed op ∧
      match s.step op with
      | some (_, s) => s.AllowedRun ops
      | none => True

end CacheState

/-- The cache as its callers see it: an array of blocks, and the block each handle
is for. -/
structure Logical where
  content : Nat → Block
  owners : List (Nat × Nat)

namespace Logical

def step (l : Logical) : CacheOp → Option Block × Logical
  | .get h id => (none, { l with owners := (h, id) :: l.owners })
  | .read h => ((l.owners.lookup h).map l.content, l)
  | .modify h f =>
      match l.owners.lookup h with
      | some id => (none, { l with content := Function.update l.content id (f (l.content id)) })
      | none => (none, l)
  | .drop h => (none, { l with owners := l.owners.eraseP fun p => p.1 == h })
  | .syncAll => (none, l)

def runOps (l : Logical) : List CacheOp → List (Option Block) × Logical
  | [] => ([], l)
  | op :: ops =>
      let (out, l) := l.step op
      let (outs, l) := l.runOps ops
      (out :: outs, l)

end Logical

namespace CacheState

theorem map_fst_owned {q hs o : List (Nat × Nat)}
    (hf : Forall₂ (fun p o => p.1 = o.1 ∧ (o.2, p.2) ∈ q) hs o) :
    hs.map Prod.fst = o.map Prod.fst := by
  induction hf with
  | nil => rfl
  | cons hp _ ih => simp [hp.1, ih]

theorem Coherent.lookup_of_mem {c : Nat → Block} {o : List (Nat × Nat)} (hs : Coherent s c o)
    {h : Nat} (hh : h ∈ s.handles.map Prod.fst) : ∃ id, o.lookup h = some id := by
  rw [map_fst_owned hs.owned] at hh
  obtain ⟨p, hp, rfl⟩ := mem_map.mp hh
  rw [← Option.isSome_iff_exists, lookup_isSome_iff]
  exact ⟨p, hp, by simp⟩

theorem step_coherent {l : Logical} (hs : Coherent s l.content l.owners) {op : CacheOp}
    (hop : s.Allowed op) :
    ∃ s', s.step op = some ((l.step op).1, s') ∧
      Coherent s' (l.step op).2.content (l.step op).2.owners := by
  cases op with
  | get h id =>
    have hroom : id ∈ s.queue.map Prod.fst ∨ s.queue.length < blockCacheSize ∨
        ∃ p ∈ s.queue, p.2 ∉ s.handles.map Prod.snd := by
      rcases hop.2 with hcached | hheld
      · exact Or.inl hcached
      · by_cases hfull : s.queue.length = blockCacheSize
        · right; right
          simpa [AllHeld, hfull] using hheld
        · exact Or.inr (Or.inl (lt_of_le_of_ne hs.size hfull))
    obtain ⟨s', hs', hco, -⟩ := hs.getHandle (h := h) hroom
    exact ⟨s', by simp [step, Logical.step, hs'], hco⟩
  | read h =>
    obtain ⟨id, hid⟩ := hs.lookup_of_mem hop
    exact ⟨s, by simp [step, Logical.step, hs.read hid, hid], hs⟩
  | modify h f =>
    obtain ⟨id, hid⟩ := hs.lookup_of_mem hop
    obtain ⟨s', hs', hco, -⟩ := hs.modify hid f
    refine ⟨s', by simp [step, Logical.step, hs', hid], ?_⟩
    simpa [Logical.step, hid] using hco
  | drop h =>
    obtain ⟨id, hid⟩ := hs.lookup_of_mem hop
    obtain ⟨s', hs', hco, -⟩ := hs.dropHandle hid
    exact ⟨s', by simp [step, Logical.step, hs'], hco⟩
  | syncAll => exact ⟨s.syncAll, rfl, hs.syncAll.1⟩

theorem runOps_coherent {l : Logical} (hs : Coherent s l.content l.owners) {ops : List CacheOp}
    (hops : s.AllowedRun ops) :
    ∃ s', s.runOps ops = some ((l.runOps ops).1, s') ∧
      Coherent s' (l.runOps ops).2.content (l.runOps ops).2.owners := by
  induction ops generalizing s l with
  | nil => exact ⟨s, rfl, hs⟩
  | cons op ops ih =>
    obtain ⟨s₁, hstep, hco₁⟩ := step_coherent hs hops.1
    have hrest : s₁.AllowedRun ops := by
      have h := hops.2
      rw [hstep] at h
      exact h
    obtain ⟨s', hrun, hco⟩ := ih hco₁ hrest
    refine ⟨s', ?_, hco⟩
    simp [runOps, hstep, hrun, Logical.runOps]

end CacheState

open CacheState in
/-- **Transparency.**  From an empty cache over a device, every sequence of allowed
operations succeeds and its reads return what reads of a plain array of blocks
return.  In the state it reaches no block has two entries, the queue is within its
bound, every handle still shows the logical contents of its block, and writing all
entries back makes the device equal to the logical contents. -/
theorem cache_transparent (dev : Nat → Block) (ops : List CacheOp)
    (hops : (init dev).AllowedRun ops) :
    ∃ s, (init dev).runOps ops = some ((Logical.runOps ⟨dev, []⟩ ops).1, s) ∧
      (s.queue.map Prod.fst).Nodup ∧ s.queue.length ≤ blockCacheSize ∧
      (∀ h id, (Logical.runOps ⟨dev, []⟩ ops).2.owners.lookup h = some id →
        s.read h = some ((Logical.runOps ⟨dev, []⟩ ops).2.content id)) ∧
      ∀ id, s.syncAll.dev id = (Logical.runOps ⟨dev, []⟩ ops).2.content id := by
  obtain ⟨s, hrun, hco⟩ := runOps_coherent (l := ⟨dev, []⟩) (coherent_init dev) hops
  exact ⟨s, hrun, hco.ids, hco.size, fun h id hid => hco.read hid, hco.syncAll.2⟩

/-- Two handles on block 5: a modification through one is read through the other. -/
theorem cache_transparent_two_handles :
    ((CacheState.init fun _ => Block.zero).runOps
      [.get 0 5, .get 1 5, .modify 0 fun b => b.setWord 0 7, .drop 0, .read 1]).map Prod.fst =
      some [none, none, none, none, some (Block.zero.setWord 0 7)] := by
  obtain ⟨s, hrun, -⟩ := cache_transparent (fun _ => Block.zero)
    [.get 0 5, .get 1 5, .modify 0 fun b => b.setWord 0 7, .drop 0, .read 1]
    ⟨by decide, by decide, by decide, by decide, by decide, trivial⟩
  rw [hrun]
  rfl

/-! ## The file system's own use of the cache -/

/-- The cache as a backend.  Every handle the program holds is locked, so that
taking a block whose object is already held, or writing everything back while a
block is held, never returns. -/
def cacheBackend : Backend Block CacheState where
  acquire id s := do
    let (a, s) ← s.getBlockCache id
    if a ∈ s.handles.map Prod.snd then none
    else some { s with handles := (id, a) :: s.handles }
  release id s := s.dropHandle id
  load id s := s.read id
  store id b s := s.modify id fun _ => b
  syncAll s := if s.handles = [] then some s.syncAll else none

/-- The cache state stands for the plain store `v`. -/
def Represents (s : CacheState) (v : View Block) : Prop :=
  s.Coherent v.blk (v.held.map fun id => (id, id)) ∧ v.held.Nodup

/-- Device and cache agree: nothing is left to be written back. -/
def Flushed (s : CacheState) : Prop :=
  ∀ p ∈ s.queue, (s.heap p.2).cache = s.dev p.1

theorem Represents.flushed_iff (h : Represents s v) : Flushed s ↔ s.Clean v.blk := by
  constructor
  · intro hfl id
    by_cases hid : id ∈ s.queue.map Prod.fst
    · obtain ⟨p, hp, rfl⟩ := mem_map.mp hid
      rw [← hfl p hp]
      exact h.1.cached p hp
    · exact h.1.uncached id hid
  · intro hcl p hp
    rw [h.1.cached p hp, hcl p.1]

theorem lookup_map_self {l : List Nat} (h : id ∈ l) :
    (l.map fun id => (id, id)).lookup id = some id := by
  induction l with
  | nil => simp at h
  | cons x l ih =>
    by_cases hx : id = x
    · simp [hx]
    · have hx' : (id == x) = false := by simpa using hx
      simp only [map_cons, lookup_cons, hx']
      exact ih (by simpa [hx] using h)

theorem eraseP_map_self (l : List Nat) (id : Nat) :
    ((l.map fun id => (id, id)).eraseP fun p => p.1 == id) =
      (l.erase id).map fun id => (id, id) := by
  induction l with
  | nil => rfl
  | cons x l ih =>
    rw [map_cons, eraseP_cons, erase_cons, ih]
    cases x == id <;> rfl

theorem exists_partner {α β : Type} {R : α → β → Prop} {l : List α} {l' : List β}
    (hf : Forall₂ R l l') {a : α} (ha : a ∈ l) : ∃ b ∈ l', R a b := by
  induction hf with
  | nil => simp at ha
  | @cons a' b _ _ hab _ ih =>
    rcases mem_cons.mp ha with rfl | ha
    · exact ⟨b, by simp, hab⟩
    · obtain ⟨b', hb', hab'⟩ := ih ha
      exact ⟨b', by simp [hb'], hab'⟩

theorem Represents.not_mem_handles (h : Represents s v) {a : Nat} (hmem : (id, a) ∈ s.queue)
    (hid : id ∉ v.held) : a ∉ s.handles.map Prod.snd := by
  intro ha
  obtain ⟨p, hp, rfl⟩ := mem_map.mp ha
  obtain ⟨r, hr, -, hq⟩ := exists_partner h.1.owned hp
  obtain ⟨id', hid', rfl⟩ := mem_map.mp hr
  have heq := h.1.eq_of_addr hmem hq rfl
  simp only [Prod.mk.injEq] at heq
  exact hid (heq.1 ▸ hid')

theorem Represents.exists_free (h : Represents s v) (hcap : v.held.length < blockCacheSize)
    (hfull : s.queue.length = blockCacheSize) : ∃ p ∈ s.queue, p.2 ∉ s.handles.map Prod.snd := by
  by_contra hall
  simp only [not_exists, not_and, not_not] at hall
  have hsub : s.queue.map Prod.snd ⊆ s.handles.map Prod.snd := by
    intro a ha
    obtain ⟨p, hp, rfl⟩ := mem_map.mp ha
    exact hall p hp
  have hle := (subperm_of_subset h.1.addrs hsub).length_le
  have hlen := h.1.owned.length_eq
  simp only [length_map] at hle hlen
  omega

theorem Represents.acquire (h : Represents s v) (hid : id ∉ v.held)
    (hcap : v.held.length < blockCacheSize) :
    ∃ s', cacheBackend.acquire id s = some s' ∧
      Represents s' { v with held := id :: v.held } ∧ (Flushed s → Flushed s') := by
  have hroom : id ∈ s.queue.map Prod.fst ∨ s.queue.length < blockCacheSize ∨
      ∃ p ∈ s.queue, p.2 ∉ s.handles.map Prod.snd := by
    by_cases hfull : s.queue.length = blockCacheSize
    · exact Or.inr (Or.inr (h.exists_free hcap hfull))
    · exact Or.inr (Or.inl (lt_of_le_of_ne h.1.size hfull))
  obtain ⟨a, t, ht, hco, -, hmem, hcl⟩ := h.1.getBlockCache hroom
  have hrep : Represents t v := ⟨hco, h.2⟩
  have hnew : Represents { t with handles := (id, a) :: t.handles }
      { v with held := id :: v.held } :=
    ⟨{ hco with owned := .cons ⟨rfl, hmem⟩ hco.owned }, nodup_cons.mpr ⟨hid, h.2⟩⟩
  refine ⟨_, ?_, hnew, ?_⟩
  · simp [cacheBackend, ht, hrep.not_mem_handles hmem hid]
  · rw [h.flushed_iff, hnew.flushed_iff]
    exact hcl

theorem Represents.acquire_held (h : Represents s v) (hid : id ∈ v.held) :
    cacheBackend.acquire id s = none := by
  have howner : (id, id) ∈ v.held.map fun id => (id, id) := mem_map_of_mem hid
  obtain ⟨p, -, -, hp⟩ := exists_partner h.1.owned.flip howner
  have hqueue : id ∈ s.queue.map Prod.fst := mem_map_of_mem hp
  obtain ⟨a, t, ht, hco, -, hmem, -⟩ := h.1.getBlockCache (Or.inl hqueue)
  obtain ⟨q, hq, -, hqueue'⟩ := exists_partner hco.owned.flip howner
  have heq := inj_on_of_nodup_map hco.ids hmem hqueue' rfl
  rw [Prod.mk.injEq] at heq
  have hheld : a ∈ t.handles.map Prod.snd := heq.2 ▸ mem_map_of_mem hq
  simp [cacheBackend, ht, hheld]

/-- The cache carries out every request that the plain store allows. -/
theorem cache_simulation : Simulation cacheBackend blockCacheSize Represents Flushed where
  acquire h hid hcap := h.acquire hid hcap
  acquire_held h hid := h.acquire_held hid
  release := by
    intro s v id h hid
    obtain ⟨s', hs', hco, hdev⟩ := h.1.dropHandle (lookup_map_self hid)
    rw [eraseP_map_self] at hco
    have hnew : Represents s' { v with held := v.held.erase id } := ⟨hco, h.2.erase id⟩
    refine ⟨s', hs', hnew, ?_⟩
    rw [h.flushed_iff, hnew.flushed_iff]
    intro hcl id'
    rw [hdev]
    exact hcl id'
  load h hid := h.1.read (lookup_map_self hid)
  store := by
    intro s v id b h hid
    obtain ⟨s', hs', hco, hdev⟩ := h.1.modify (lookup_map_self hid) fun _ => b
    have hnew : Represents s' { v with blk := Function.update v.blk id b } := ⟨hco, h.2⟩
    refine ⟨s', hs', hnew, ?_⟩
    rw [h.flushed_iff, hnew.flushed_iff]
    rintro rfl hcl id'
    rw [hdev, Function.update_eq_self]
    exact hcl id'
  syncAll := by
    intro s v h hheld
    have hhandles : s.handles = [] := by
      have hlen := h.1.owned.length_eq
      simpa [hheld] using hlen
    have hnew : Represents s.syncAll v := ⟨h.1.syncAll.1, h.2⟩
    refine ⟨s.syncAll, by simp [cacheBackend, hhandles], hnew, ?_⟩
    rw [hnew.flushed_iff]
    exact h.1.syncAll.2

theorem represents_init (dev : Nat → Block) : Represents (CacheState.init dev) ⟨dev, []⟩ :=
  ⟨CacheState.coherent_init dev, by simp⟩

end RCore.EasyFs
