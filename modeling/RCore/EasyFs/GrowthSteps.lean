import RCore.EasyFs.FsMachine

/-!
# Growing in steps, and clearing

`increase_size` takes the numbers of the new blocks in the order of the places that it fills.
What it leaves of the record and of the blocks is determined by the numbers alone
(`GrowingFrom.unique`), and growth after growth is growth (`GrowingFrom.trans`), so that it does
not matter in how many calls an inode has come to its size.  `clear_size` gives the numbers back
in the same order and leaves the record as it was before the first of them.
-/

namespace RCore.EasyFs

open RCore.Lib.LockedStore List DiskInode
open Slot

/-! ## What growth leaves -/

namespace GrowingFrom

variable {d₀ d₁ d₂ : DiskInode} {blk₀ blk₁ blk₂ : Nat → Block} {all v : List UInt32}
  {done : List Slot} {m n : Nat}

theorem start (d : DiskInode) (blk : Nat → Block) (size : UInt32) (hn : n ≤ 16540) :
    GrowingFrom { d with size := size } blk (tree d blk n) { d with size := size } blk (slots n)
      [] where
  ids := by
    rw [slotId_withSize, append_nil]
    rfl
  closed := closed_slots n
  entry_lt := fun _ hs _ hp => entry_lt_of_inUse hn (mem_slots.mp hs) hp
  size := rfl
  type_ := rfl
  frame := fun _ _ => rfl
  root_kept := fun _ _ _ => rfl
  cell_kept := fun _ _ _ _ _ => rfl

theorem unique (h₁ : GrowingFrom d₀ blk₀ all d₁ blk₁ done [])
    (h₂ : GrowingFrom d₀ blk₀ all d₂ blk₂ done []) : d₁ = d₂ ∧ blk₁ = blk₂ := by
  have hids : ∀ s ∈ done, slotId d₁ blk₁ s = slotId d₂ blk₂ s := by
    have hmap := h₁.ids.trans h₂.ids.symm
    rw [append_nil, append_nil] at hmap
    exact map_inj_left.mp hmap
  constructor
  · refine record_eq_of_ids hids ?_ (h₁.type_.trans h₂.type_.symm)
    intro e he hfree
    rw [h₁.root_kept e he hfree, h₂.root_kept e he hfree]
  · funext id
    by_cases hindex : ∃ p ∈ done, p.isIndex = true ∧ (slotId d₁ blk₁ p).toNat = id
    · obtain ⟨p, hp, -, rfl⟩ := hindex
      refine indexBlock_eq_of_ids hids hp ?_
      intro e he hfree
      have hkept₂ := h₂.cell_kept p hp e he hfree
      rw [← hids p hp] at hkept₂
      rw [h₁.cell_kept p hp e he hfree, hkept₂]
    · have hfree : ∀ s ∈ done, s.isIndex = true → (slotId d₁ blk₁ s).toNat ≠ id :=
        fun s hs hidx he => hindex ⟨s, hs, hidx, he⟩
      rw [h₁.frame id hfree, h₂.frame id fun s hs hidx => hids s hs ▸ hfree s hs hidx]

/-- Growth after growth. -/
theorem trans {size : UInt32} (hmn : m ≤ n) (hnd : (all ++ v).Nodup)
    (h₁ : GrowingFrom d₀ blk₀ all d₁ blk₁ (slots m) [])
    (h₂ : GrowingFrom { d₁ with size := size } blk₁ (all ++ v) d₂ blk₂ (slots n) []) :
    GrowingFrom { d₀ with size := size } blk₀ (all ++ v) d₂ blk₂ (slots n) [] := by
  have htree : tree d₂ blk₂ n = tree d₁ blk₁ m ++ v := by rw [h₂.tree_eq, h₁.tree_eq]
  have hsub : ∀ s ∈ slots m, s ∈ slots n := by
    obtain ⟨l, hl⟩ := slots_append hmn
    intro s hs
    rw [hl]
    exact mem_append_left _ hs
  have hids : ∀ s ∈ slots m, slotId d₂ blk₂ s = slotId d₁ blk₁ s := fun s hs =>
    slotId_of_tree_append hmn htree (mem_slots.mp hs)
  refine ⟨⟨h₂.ids, h₂.closed, h₂.entry_lt, h₂.size, h₂.type_.trans h₁.type_, ?_⟩, ?_, ?_⟩
  · intro id hid
    rw [h₂.frame id hid]
    apply h₁.frame
    intro s hs hidx
    rw [← hids s hs]
    exact hid s (hsub s hs) hidx
  · intro e he hfree
    rw [h₂.root_kept e he hfree]
    by_cases h0 : e = 0
    · subst h0
      rfl
    · rw [field_withSize d₁ size h0, field_withSize d₀ size h0]
      exact h₁.root_kept e he fun s hs => hfree s (hsub s hs)
  · intro p hp e he hfree
    rw [h₂.cell_kept p hp e he hfree]
    by_cases hold : p ∈ slots m
    · rw [hids p hold]
      exact h₁.cell_kept p hold e he fun s hs => hfree s (hsub s hs)
    · -- the block is a new one, which the first growth does not know
      have hnew := slotId_mem_of_tree_append hmn htree (h₂.tree_eq.symm ▸ hnd) (mem_slots.mp hp)
        fun hin => hold (mem_slots.mpr hin)
      have hsame : blk₁ (slotId d₂ blk₂ p).toNat = blk₀ (slotId d₂ blk₂ p).toNat := by
        apply h₁.frame
        intro s hs _ hs'
        have hmem : slotId d₁ blk₁ s ∈ all := h₁.toGrowing.mem_all hs
        rw [UInt32.toNat_inj.mp hs'] at hmem
        exact (nodup_append.mp hnd).2.2 _ hmem _ hnew rfl
      rw [hsame]

end GrowingFrom

/-! ## Sequences of calls -/

/-- The arguments of a call of `increase_size`. -/
structure Growth where
  newSize : UInt32
  newBlocks : List UInt32

/-- The calls of `increase_size` in turn. -/
def DiskInode.growAll (self : DiskInode) : List Growth → FsProg DiskInode
  | [] => pure self
  | step :: rest => do
      let self ← self.increaseSize step.newSize step.newBlocks
      self.growAll rest

/-- The size behind the calls. -/
def finalSize (size : UInt32) (steps : List Growth) : UInt32 :=
  steps.foldl (fun _ step => step.newSize) size

/-- The numbers that the calls are given, in order. -/
def newBlocksOf (steps : List Growth) : List UInt32 := steps.flatMap Growth.newBlocks

/-- The sizes do not decrease and stay within the largest file, and each call is given as many
blocks as `blocks_num_needed` returns for it. -/
def Fitting (size : UInt32) : List Growth → Prop
  | [] => True
  | step :: rest => size.toNat ≤ step.newSize.toNat ∧ step.newSize.toNat ≤ maxFileSize ∧
      step.newBlocks.length =
        (DiskInode.totalBlocks step.newSize - DiskInode.totalBlocks size).toNat ∧
      Fitting step.newSize rest

section Steps

variable {size : UInt32} {steps : List Growth}

theorem Fitting.final_bounds (h : Fitting size steps) (hsize : size.toNat ≤ maxFileSize) :
    size.toNat ≤ (finalSize size steps).toNat ∧ (finalSize size steps).toNat ≤ maxFileSize := by
  induction steps generalizing size with
  | nil => exact ⟨le_rfl, hsize⟩
  | cons step rest ih =>
    obtain ⟨hle, hmax, -, hrest⟩ := h
    obtain ⟨hle', hmax'⟩ := ih hrest hmax
    exact ⟨hle.trans hle', hmax'⟩

theorem Fitting.length_newBlocksOf (h : Fitting size steps) (hsize : size.toNat ≤ maxFileSize) :
    (newBlocksOf steps).length =
      blockCount (blocksFor (finalSize size steps).toNat) - blockCount (blocksFor size.toNat) := by
  induction steps generalizing size with
  | nil => exact (Nat.sub_self _).symm
  | cons step rest ih =>
    obtain ⟨hle, hmax, hlen, hrest⟩ := h
    have hfinal := hrest.final_bounds hmax
    have hfirst := blockCount_mono (blocksFor_mono hle)
    have hsecond := blockCount_mono (blocksFor_mono hfinal.1)
    have hlater := ih hrest hmax
    rw [toNat_totalBlocks_sub hmax hle] at hlen
    have hcons : newBlocksOf (step :: rest) = step.newBlocks ++ newBlocksOf rest := rfl
    have hfinal' : finalSize size (step :: rest) = finalSize step.newSize rest := rfl
    rw [hcons, hfinal', length_append, hlen, hlater]
    omega

variable {cap : Nat} {blk : Nat → Block} {held : List Nat} {d : DiskInode}

/-- The calls in turn fill the places behind those in use. -/
theorem run_growAll (d : DiskInode) (blk : Nat → Block) (hfit : Fitting d.size steps)
    (hsize : d.size.toNat ≤ maxFileSize)
    (hnd : (tree d blk (blocksFor d.size.toNat) ++ newBlocksOf steps).Nodup)
    (hheld : ∀ id ∈ tree d blk (blocksFor d.size.toNat) ++ newBlocksOf steps, id.toNat ∉ held)
    (hcap : held.length + 1 < cap) :
    ∃ d' blk', (d.growAll steps).run cap false ⟨blk, held⟩ = some (d', ⟨blk', held⟩) ∧
      GrowingFrom { d with size := finalSize d.size steps } blk
        (tree d blk (blocksFor d.size.toNat) ++ newBlocksOf steps) d' blk'
        (slots (blocksFor (finalSize d.size steps).toNat)) [] := by
  induction steps generalizing d blk with
  | nil =>
    refine ⟨d, blk, rfl, ?_⟩
    rw [newBlocksOf, flatMap_nil, append_nil]
    exact GrowingFrom.start d blk d.size (blocksFor_le hsize)
  | cons step rest ih =>
    obtain ⟨hle, hmax, hlen, hrest⟩ := hfit
    have hcons : newBlocksOf (step :: rest) = step.newBlocks ++ newBlocksOf rest := rfl
    rw [hcons, ← append_assoc] at hnd hheld ⊢
    rw [toNat_totalBlocks_sub hmax hle] at hlen
    obtain ⟨d₁, blk₁, hrun₁, hgrow₁⟩ := run_increaseSize_from d (toNat_dataBlocksOf hsize)
      (toNat_dataBlocksOf hmax) (blocksFor_mono hle) (blocksFor_le hmax) hnd.of_append_left hlen
      (fun id hid => hheld id (mem_append_left _ hid)) hcap
    have hsize₁ : d₁.size = step.newSize := hgrow₁.size
    have htree₁ := hgrow₁.tree_eq
    rw [← hsize₁] at hmax hrest htree₁ hgrow₁
    rw [← htree₁] at hnd hheld ⊢
    obtain ⟨d₂, blk₂, hrun₂, hgrow₂⟩ := ih d₁ blk₁ hrest hmax hnd hheld
    have hfinal := (hrest.final_bounds hmax).1
    have hend : finalSize d.size (step :: rest) = finalSize d₁.size rest := by
      rw [hsize₁]
      rfl
    refine ⟨d₂, blk₂, ?_, ?_⟩
    · rw [growAll, Prog.run_bind_some hrun₁]
      exact hrun₂
    · rw [hend]
      rw [← htree₁] at hgrow₁
      have hgrow := GrowingFrom.trans (blocksFor_mono hfinal) hnd hgrow₁ hgrow₂
      exact hgrow

end Steps

section Prefixes

variable {size : UInt32} {pre post : List Growth}

theorem Fitting.append (h : Fitting size (pre ++ post)) :
    Fitting size pre ∧ Fitting (finalSize size pre) post := by
  induction pre generalizing size with
  | nil => exact ⟨trivial, h⟩
  | cons step rest ih =>
    obtain ⟨hle, hmax, hlen, hrest⟩ := h
    obtain ⟨hpre, hpost⟩ := ih hrest
    exact ⟨⟨hle, hmax, hlen, hpre⟩, hpost⟩

theorem finalSize_append : finalSize size (pre ++ post) = finalSize (finalSize size pre) post :=
  foldl_append

theorem newBlocksOf_append : newBlocksOf (pre ++ post) = newBlocksOf pre ++ newBlocksOf post :=
  flatMap_append

end Prefixes

/-! ## An inode that starts empty -/

/-- The numbers of the index blocks of a file of `n` data blocks. -/
def indexBlocks (d : DiskInode) (blk : Nat → Block) (n : Nat) : List UInt32 :=
  ((slots n).filter Slot.isIndex).map (slotId d blk)

/-- What `get_block_id` returns on the block cache. -/
def DiskInode.blockIdAt (self : DiskInode) (s : CacheState) (innerId : Nat) : Option UInt32 :=
  ((self.getBlockId innerId).exec cacheBackend s).map Prod.fst

/-- The inode `d` on the cache `s` has grown from the empty one through the given calls. -/
structure GrownTo (type_ : DiskInodeType) (s₀ : CacheState) (held : List Nat)
    (steps : List Growth) (d : DiskInode) (s : CacheState) : Prop where
  holding : s.Holding held
  size : d.size = finalSize 0 steps
  dataBlocks : d.dataBlocks.toNat = blocksFor (finalSize 0 steps).toNat
  bound : d.dataBlocks.toNat ≤ 16540
  grown : GrowingFrom { DiskInode.initial type_ with size := finalSize 0 steps } s₀.content
    (newBlocksOf steps) d s.content (slots d.dataBlocks.toNat) []

theorem tree_initial (type_ : DiskInodeType) (blk : Nat → Block) :
    tree (initial type_) blk (blocksFor (initial type_).size.toNat) = [] := by
  have hsize : (initial type_).size.toNat = 0 := rfl
  rw [hsize]
  rfl

section Initial

variable {type_ : DiskInodeType} {steps : List Growth} {s : CacheState} {held : List Nat}

theorem GrownTo.of_run (hfit : Fitting 0 steps) (hs : s.Holding held) {p : FsProg DiskInode}
    {d : DiskInode} {blk : Nat → Block}
    (hrun : p.run blockCacheSize false ⟨s.content, held⟩ = some (d, ⟨blk, held⟩))
    (hgrow : GrowingFrom { initial type_ with size := finalSize 0 steps } s.content
      (newBlocksOf steps) d blk (slots (blocksFor (finalSize 0 steps).toNat)) []) :
    ∃ s', p.exec cacheBackend s = some (d, s') ∧ GrownTo type_ s held steps d s' := by
  obtain ⟨s', hexec, hholding, hcontent⟩ := hs.exec_of_run hrun
  have hsize : d.size = finalSize 0 steps := hgrow.size
  have hmax := (hfit.final_bounds (Nat.zero_le _)).2
  have hblocks : d.dataBlocks.toNat = blocksFor (finalSize 0 steps).toNat := by
    rw [DiskInode.dataBlocks, hsize, toNat_dataBlocksOf hmax]
  refine ⟨s', hexec, hholding, hsize, hblocks, ?_, ?_⟩
  · rw [hblocks]
    exact blocksFor_le hmax
  · rw [hblocks, hcontent]
    exact hgrow

variable (hfit : Fitting 0 steps) (hnd : (newBlocksOf steps).Nodup) (hs : s.Holding held)
  (hcap : held.length + 1 < blockCacheSize) (hheld : ∀ id ∈ newBlocksOf steps, id.toNat ∉ held)
include hfit hnd hs hcap hheld

theorem exec_growAll (type_ : DiskInodeType) :
    ∃ d s', ((initial type_).growAll steps).exec cacheBackend s = some (d, s') ∧
      GrownTo type_ s held steps d s' := by
  have htree := tree_initial type_ s.content
  obtain ⟨d, blk, hrun, hgrow⟩ := run_growAll (initial type_) s.content hfit
    (Nat.zero_le _) (by rw [htree]; exact hnd) (by rw [htree]; exact hheld) hcap
  rw [htree, nil_append] at hgrow
  exact ⟨d, GrownTo.of_run hfit hs hrun hgrow⟩

theorem exec_increaseSize_once (type_ : DiskInodeType) :
    ∃ d s', ((initial type_).increaseSize (finalSize 0 steps)
        (newBlocksOf steps)).exec cacheBackend s = some (d, s') ∧
      GrownTo type_ s held steps d s' := by
  have hmax := (hfit.final_bounds (Nat.zero_le _)).2
  have htree := tree_initial type_ s.content
  have hnd' : (tree (initial type_) s.content
      (blocksFor (initial type_).size.toNat) ++ newBlocksOf steps).Nodup := by
    rw [htree]
    exact hnd
  obtain ⟨d, blk, hrun, hgrow⟩ := run_increaseSize_from (initial type_)
    (toNat_dataBlocksOf (Nat.zero_le _)) (toNat_dataBlocksOf hmax)
    (blocksFor_mono (Nat.zero_le _)) (blocksFor_le hmax) hnd'
    (hfit.length_newBlocksOf (Nat.zero_le _)) (by rw [htree]; exact hheld) hcap
  rw [htree, nil_append] at hgrow
  exact ⟨d, GrownTo.of_run hfit hs hrun hgrow⟩

end Initial

namespace GrownTo

variable {type_ : DiskInodeType} {steps pre post : List Growth} {s₀ s s₁ s₂ : CacheState}
  {held : List Nat} {d d₁ d₂ : DiskInode}

theorem unique (h₁ : GrownTo type_ s₀ held steps d₁ s₁) (h₂ : GrownTo type_ s₀ held steps d₂ s₂) :
    d₁ = d₂ ∧ s₁.content = s₂.content := by
  have hgrow := h₂.grown
  rw [h₂.dataBlocks, ← h₁.dataBlocks] at hgrow
  exact h₁.grown.unique hgrow

/-- `get_block_id` returns the number of the position. -/
theorem blockIdAt_eq (h : GrownTo type_ s₀ held steps d s)
    (hcap : held.length + 1 < blockCacheSize) (hheld : ∀ id ∈ newBlocksOf steps, id.toNat ∉ held)
    {i : Nat} (hi : i < d.dataBlocks.toNat) :
    d.blockIdAt s i = some (slotId d s.content (data i)) := by
  have hfree : ∀ id ∈ tree d s.content d.dataBlocks.toNat, id.toNat ∉ held := by
    rw [h.grown.tree_eq]
    exact hheld
  have hlt : held.length < blockCacheSize := by omega
  have hrun : (d.getBlockId i).run blockCacheSize true ⟨s.content, held⟩ =
      some (slotId d s.content (data i), ⟨s.content, held⟩) :=
    run_getBlockId d h.bound hi hfree hlt
  obtain ⟨s', hexec, -, -⟩ := h.holding.exec_of_run hrun
  rw [blockIdAt, hexec]
  rfl

theorem not_mem_indexBlocks (h : GrownTo type_ s₀ held steps d s)
    (hnd : (newBlocksOf steps).Nodup) {i : Nat} (hi : i < d.dataBlocks.toNat) :
    slotId d s.content (data i) ∉ indexBlocks d s.content d.dataBlocks.toNat := by
  intro hmem
  obtain ⟨t, ht, he⟩ := mem_map.mp hmem
  obtain ⟨ht, hindex⟩ := mem_filter.mp ht
  rw [← h.grown.tree_eq] at hnd
  rw [slotId_inj hnd (mem_slots.mp ht) (show Slot.InUse _ (data i) from hi) he] at hindex
  exact Bool.false_ne_true hindex

theorem slotId_prefix (hfit : Fitting 0 (pre ++ post))
    (h₁ : GrownTo type_ s₀ held pre d₁ s₁) (h₂ : GrownTo type_ s₀ held (pre ++ post) d₂ s₂)
    {i : Nat} (hi : i < d₁.dataBlocks.toNat) :
    i < d₂.dataBlocks.toNat ∧
      slotId d₂ s₂.content (data i) = slotId d₁ s₁.content (data i) := by
  obtain ⟨hpre, hpost⟩ := hfit.append
  have hmax := (hpre.final_bounds (Nat.zero_le _)).2
  have hle : d₁.dataBlocks.toNat ≤ d₂.dataBlocks.toNat := by
    rw [h₁.dataBlocks, h₂.dataBlocks, finalSize_append]
    exact blocksFor_mono (hpost.final_bounds hmax).1
  have htree : tree d₂ s₂.content d₂.dataBlocks.toNat =
      tree d₁ s₁.content d₁.dataBlocks.toNat ++ newBlocksOf post := by
    rw [h₁.grown.tree_eq, h₂.grown.tree_eq, newBlocksOf_append]
  exact ⟨Nat.lt_of_lt_of_le hi hle,
    slotId_of_tree_append hle htree (show Slot.InUse _ (data i) from hi)⟩

end GrownTo

/-- **Growing in steps.**  An empty inode is grown through sizes that do not decrease, each call
being given as many block numbers as `blocks_num_needed` says; all numbers are different, and
none is that of a block in hand.  The calls return with every number in its own place of the
tree, and leave the record and all blocks as one call to the final size with all the numbers
does.  `get_block_id` returns different numbers among those given for the data blocks, none of
them that of an index block, and the same after any later call. -/
theorem growth_in_steps (type_ : DiskInodeType) {steps : List Growth} (hfit : Fitting 0 steps)
    (hnd : (newBlocksOf steps).Nodup) {s : CacheState} {held : List Nat} (hs : s.Holding held)
    (hcap : held.length + 1 < blockCacheSize)
    (hheld : ∀ id ∈ newBlocksOf steps, id.toNat ∉ held) :
    ∃ d s', ((DiskInode.initial type_).growAll steps).exec cacheBackend s = some (d, s') ∧
      d.size = finalSize 0 steps ∧
      tree d s'.content d.dataBlocks.toNat = newBlocksOf steps ∧
      (∃ s'', ((DiskInode.initial type_).increaseSize (finalSize 0 steps)
          (newBlocksOf steps)).exec cacheBackend s = some (d, s'') ∧
        s''.content = s'.content) ∧
      (∀ i < d.dataBlocks.toNat, ∃ id ∈ newBlocksOf steps, d.blockIdAt s' i = some id ∧
        id ∉ indexBlocks d s'.content d.dataBlocks.toNat ∧
        ∀ j < d.dataBlocks.toNat, d.blockIdAt s' j = some id → i = j) ∧
      ∀ pre post, steps = pre ++ post → ∃ d₁ s₁,
        ((DiskInode.initial type_).growAll pre).exec cacheBackend s = some (d₁, s₁) ∧
        ∀ i < d₁.dataBlocks.toNat, ∃ id, d₁.blockIdAt s₁ i = some id ∧
          d.blockIdAt s' i = some id := by
  obtain ⟨d, s', hexec, hgrown⟩ := exec_growAll hfit hnd hs hcap hheld type_
  obtain ⟨d', s'', hexec', hgrown'⟩ := exec_increaseSize_once hfit hnd hs hcap hheld type_
  obtain ⟨rfl, hcontent⟩ := hgrown'.unique hgrown
  refine ⟨d', s', hexec, hgrown.size, hgrown.grown.tree_eq, ⟨s'', hexec', hcontent⟩, ?_, ?_⟩
  · intro i hi
    have hnd' := hnd
    rw [← hgrown.grown.tree_eq] at hnd'
    refine ⟨slotId d' s'.content (data i), ?_, hgrown.blockIdAt_eq hcap hheld hi,
      hgrown.not_mem_indexBlocks hnd hi, ?_⟩
    · rw [← hgrown.grown.tree_eq]
      exact slotId_mem_tree (s := data i) hi
    · intro j hj he
      rw [hgrown.blockIdAt_eq hcap hheld hj, Option.some.injEq] at he
      exact Slot.data.inj (slotId_inj hnd' (s := data i) (t := data j) hi hj he.symm)
  · rintro pre post rfl
    have hmem : ∀ id ∈ newBlocksOf pre, id ∈ newBlocksOf (pre ++ post) := by
      intro id hid
      rw [newBlocksOf_append]
      exact List.mem_append_left _ hid
    have hnd₁ : (newBlocksOf pre).Nodup := by
      rw [newBlocksOf_append] at hnd
      exact hnd.of_append_left
    have hheld₁ : ∀ id ∈ newBlocksOf pre, id.toNat ∉ held := fun id hid => hheld id (hmem id hid)
    obtain ⟨d₁, s₁, hexec₁, hgrown₁⟩ := exec_growAll hfit.append.1 hnd₁ hs hcap hheld₁ type_
    refine ⟨d₁, s₁, hexec₁, fun i hi => ?_⟩
    obtain ⟨hlt, hslot⟩ := GrownTo.slotId_prefix hfit hgrown₁ hgrown hi
    refine ⟨slotId d₁ s₁.content (data i), hgrown₁.blockIdAt_eq hcap hheld₁ hi, ?_⟩
    rw [hgrown.blockIdAt_eq hcap hheld hlt, hslot]

/-- Twenty-eight direct blocks first, then the singly indirect block and one block below it. -/
theorem growth_in_steps_indirect1 :
    ∃ d s', ((DiskInode.initial .file).growAll
        [⟨14336, (List.range' 100 28).map UInt32.ofNat⟩, ⟨14337, [200, 201]⟩]).exec cacheBackend
          (CacheState.init fun _ => Block.zero) = some (d, s') ∧ d.size = 14337 := by
  have hfit : Fitting 0
      [⟨14336, (List.range' 100 28).map UInt32.ofNat⟩, ⟨14337, [200, 201]⟩] :=
    ⟨by decide, by decide, by decide, by decide, by decide, by decide, trivial⟩
  obtain ⟨d, s', hexec, hsize, -⟩ := growth_in_steps .file hfit (by decide)
    (represents_init fun _ => Block.zero).holding (by decide) (fun _ _ => List.not_mem_nil)
  exact ⟨d, s', hexec, hsize⟩

/-! ## Clearing -/

/-- An inode that has grown from the empty one, with the numbers that the calls of
`increase_size` were given, in order.  Between the calls other blocks than its index blocks may
be written. -/
inductive Grown (type_ : DiskInodeType) (held : List Nat) :
    DiskInode → CacheState → List UInt32 → Prop where
  | empty {s : CacheState} (hs : s.Holding held) :
      Grown type_ held (DiskInode.initial type_) s []
  | increase {d d' : DiskInode} {s s' : CacheState} {ids newBlocks : List UInt32}
      {newSize : UInt32} (h : Grown type_ held d s ids)
      (hle : d.size.toNat ≤ newSize.toNat) (hmax : newSize.toNat ≤ maxFileSize)
      (hlen : newBlocks.length =
        (DiskInode.totalBlocks newSize - DiskInode.totalBlocks d.size).toNat)
      (hexec : (d.increaseSize newSize newBlocks).exec cacheBackend s = some (d', s')) :
      Grown type_ held d' s' (ids ++ newBlocks)
  | other {d : DiskInode} {s s' : CacheState} {ids : List UInt32} (h : Grown type_ held d s ids)
      (hs' : s'.Holding held)
      (hindex : ∀ id ∈ indexBlocks d s.content d.dataBlocks.toNat,
        s'.content id.toNat = s.content id.toNat) :
      Grown type_ held d s' ids

/-- The numbers are those of the tree, and the rest of the record is still zero. -/
structure GrownInv (type_ : DiskInodeType) (held : List Nat) (d : DiskInode) (s : CacheState)
    (ids : List UInt32) : Prop where
  holding : s.Holding held
  bound : d.size.toNat ≤ maxFileSize
  type_ : d.type_ = type_
  tree_eq : tree d s.content d.dataBlocks.toNat = ids
  zero : ∀ e < 31, e ≠ 0 →
    (∀ t ∈ slots d.dataBlocks.toNat, t.parent = none → t.entry ≠ e) → d.field e = 0

namespace GrownInv

variable {type_ : DiskInodeType} {held : List Nat} {d d' : DiskInode} {s s' : CacheState}
  {ids newBlocks : List UInt32} {newSize : UInt32}

theorem dataBlocks_eq (h : GrownInv type_ held d s ids) :
    d.dataBlocks.toNat = blocksFor d.size.toNat := toNat_dataBlocksOf h.bound

theorem dataBlocks_le (h : GrownInv type_ held d s ids) : d.dataBlocks.toNat ≤ 16540 := by
  rw [h.dataBlocks_eq]
  exact blocksFor_le h.bound

theorem field_initial (type_ : DiskInodeType) (e : Nat) : (initial type_).field e = 0 := by
  unfold field initial directAt
  split
  · rfl
  · split
    · simp only [Vector.getElem?_replicate]
      split <;> rfl
    · split <;> rfl

theorem empty (hs : s.Holding held) : GrownInv type_ held (initial type_) s [] where
  holding := hs
  bound := Nat.zero_le _
  type_ := rfl
  tree_eq := by
    have hblocks : (initial type_).dataBlocks.toNat =
        blocksFor (initial type_).size.toNat := toNat_dataBlocksOf (Nat.zero_le _)
    rw [hblocks]
    exact tree_initial type_ s.content
  zero := fun e _ _ _ => field_initial type_ e

section

variable (h : GrownInv type_ held d s ids)
include h

theorem increase (hcap : held.length + 1 < blockCacheSize) (hnd : (ids ++ newBlocks).Nodup)
    (hheld : ∀ id ∈ ids ++ newBlocks, id.toNat ∉ held) (hle : d.size.toNat ≤ newSize.toNat)
    (hmax : newSize.toNat ≤ maxFileSize)
    (hlen : newBlocks.length =
      (totalBlocks newSize - totalBlocks d.size).toNat)
    (hexec : (d.increaseSize newSize newBlocks).exec cacheBackend s = some (d', s')) :
    GrownInv type_ held d' s' (ids ++ newBlocks) := by
  have hcur := h.dataBlocks_eq
  have hmono := blocksFor_mono hle
  rw [toNat_totalBlocks_sub hmax hle] at hlen
  rw [← h.tree_eq, hcur] at hnd hheld
  obtain ⟨d₁, blk₁, hrun, hgrow⟩ := run_increaseSize_from d hcur (toNat_dataBlocksOf hmax) hmono
    (blocksFor_le hmax) hnd hlen hheld hcap
  obtain ⟨s₁, hexec₁, hholding, hcontent⟩ := h.holding.exec_of_run hrun
  cases hexec₁.symm.trans hexec
  have hsize : d'.size = newSize := hgrow.size
  have hblocks : d'.dataBlocks.toNat = blocksFor newSize.toNat := by
    rw [DiskInode.dataBlocks, hsize, toNat_dataBlocksOf hmax]
  refine ⟨hholding, hsize ▸ hmax, hgrow.type_.trans h.type_, ?_, ?_⟩
  · rw [hblocks, hcontent, hgrow.tree_eq, ← hcur, h.tree_eq]
  · rw [hblocks]
    intro e he h0 hfree
    rw [hgrow.root_kept e he hfree, field_withSize d newSize h0]
    refine h.zero e he h0 fun t ht => hfree t ?_
    obtain ⟨l, hl⟩ := slots_append hmono
    rw [hl, ← hcur]
    exact mem_append_left _ ht

theorem other (hs' : s'.Holding held)
    (hindex : ∀ id ∈ indexBlocks d s.content d.dataBlocks.toNat,
      s'.content id.toNat = s.content id.toNat) : GrownInv type_ held d s' ids := by
  refine ⟨hs', h.bound, h.type_, ?_, h.zero⟩
  rw [← h.tree_eq]
  apply map_congr_left
  intro t ht
  refine slotId_congr (fun _ _ _ => rfl) (fun p hp hidx => hindex _ ?_) (mem_slots.mp ht)
  exact mem_map_of_mem (mem_filter.mpr ⟨mem_slots.mpr hp, hidx⟩)

theorem field_eq_zero {e : Nat} (he : e < 31) (h0 : e ≠ 0)
    (hfree : ¬(e ≤ 28 ∧ e - 1 < d.dataBlocks.toNat) ∧ ¬(e = 29 ∧ 28 < d.dataBlocks.toNat) ∧
      ¬(e = 30 ∧ 156 < d.dataBlocks.toNat)) : d.field e = 0 := by
  apply h.zero e he h0
  rintro t ht hparent rfl
  rw [mem_slots] at ht
  cases t with
  | data j =>
    have hj : j < d.dataBlocks.toNat := ht
    by_cases h28 : j < 28
    · rw [entry, if_pos h28] at hfree
      omega
    · by_cases h156 : j < 156
      · rw [parent_data_indirect1 (by omega) h156] at hparent
        cases hparent
      · rw [parent_data_indirect2 (by omega)] at hparent
        cases hparent
  | indirect1 => exact hfree.2.1 ⟨rfl, ht⟩
  | indirect2 => exact hfree.2.2 ⟨rfl, ht⟩
  | sub a => cases hparent

/-- Without its numbers, the record is that of the empty inode. -/
theorem emptied_eq (he : Emptied d.dataBlocks.toNat d d') : d' = initial type_ := by
  apply ext_field
  · intro e hlt
    rw [field_initial]
    by_cases h0 : e = 0
    · subst h0
      exact he.size
    by_cases h28 : e ≤ 28
    · have hfield : ∀ x : DiskInode, x.field e = x.directAt (e - 1) := by
        intro x
        rw [field, if_neg h0, if_pos h28]
      rw [hfield, he.direct (e - 1) (by omega)]
      split
      · rfl
      · rw [← hfield]
        exact h.field_eq_zero hlt h0 (by omega)
    by_cases h29 : e = 29
    · subst h29
      have hfield : ∀ x : DiskInode, x.field 29 = x.indirect1 := fun _ => rfl
      rw [hfield, he.indirect1]
      split
      · rfl
      · rw [← hfield]
        exact h.field_eq_zero hlt h0 (by omega)
    · obtain rfl : e = 30 := by omega
      have hfield : ∀ x : DiskInode, x.field 30 = x.indirect2 := fun _ => rfl
      rw [hfield, he.indirect2]
      split
      · rfl
      · rw [← hfield]
        exact h.field_eq_zero hlt h0 (by omega)
  · rw [he.type_, h.type_]
    rfl

end

end GrownInv

theorem Grown.inv {type_ : DiskInodeType} {held : List Nat} {d : DiskInode} {s : CacheState}
    {ids : List UInt32} (h : Grown type_ held d s ids) (hnd : ids.Nodup)
    (hcap : held.length + 1 < blockCacheSize) (hheld : ∀ id ∈ ids, id.toNat ∉ held) :
    GrownInv type_ held d s ids := by
  induction h with
  | empty hs => exact .empty hs
  | increase _ hle hmax hlen hexec ih =>
    have hinv := ih hnd.of_append_left fun id hid => hheld id (mem_append_left _ hid)
    exact hinv.increase hcap hnd hheld hle hmax hlen hexec
  | other _ hs' hindex ih => exact (ih hnd hheld).other hs' hindex

/-- **Clearing undoes growing.**  However an inode has grown from the empty one, with different
block numbers none of which is that of a block in hand, and its index blocks not written
otherwise, `clear_size` returns the numbers that the calls of `increase_size` were given, in
their order, as many as `total_blocks` says, changes no block, and leaves the record of an empty
inode of the type. -/
theorem clear_undoes_growth {type_ : DiskInodeType} {held : List Nat} {d : DiskInode}
    {s : CacheState} {ids : List UInt32} (h : Grown type_ held d s ids) (hnd : ids.Nodup)
    (hcap : held.length + 1 < blockCacheSize) (hheld : ∀ id ∈ ids, id.toNat ∉ held) :
    ids.length = (DiskInode.totalBlocks d.size).toNat ∧
    ∃ s', d.clearSize.exec cacheBackend s = some ((ids, DiskInode.initial type_), s') ∧
      s'.content = s.content := by
  have hinv := h.inv hnd hcap hheld
  have htree := hinv.tree_eq
  constructor
  · rw [toNat_totalBlocks hinv.bound, ← htree, tree, List.length_map, length_slots,
      hinv.dataBlocks_eq]
  · have hnd' : (tree d s.content d.dataBlocks.toNat).Nodup := htree.symm ▸ hnd
    obtain ⟨d', hrun, hemptied⟩ := run_clearSize_emptied false rfl
      hinv.dataBlocks_le hnd' (htree.symm ▸ hheld) hcap
    obtain ⟨s', hexec, -, hcontent⟩ := hinv.holding.exec_of_run hrun
    rw [htree, hinv.emptied_eq hemptied] at hexec
    exact ⟨s', hexec, hcontent⟩

/-- An inode that has grown to one block. -/
theorem clear_undoes_growth_one :
    ∃ d s s', Grown .file [] d s [7] ∧
      d.clearSize.exec cacheBackend s = some (([7], DiskInode.initial .file), s') := by
  have hs : (CacheState.init fun _ => Block.zero).Holding [] :=
    (represents_init fun _ => Block.zero).holding
  have hfit : Fitting 0 [⟨1, [7]⟩] := ⟨by decide, by decide, by decide, trivial⟩
  obtain ⟨d, s, hexec, -⟩ := exec_increaseSize_once hfit (by decide) hs (by decide)
    (fun _ _ => List.not_mem_nil) .file
  have hgrown : Grown .file [] d s ([] ++ [7]) :=
    .increase (.empty hs) (by decide) (by decide) (by decide) hexec
  obtain ⟨-, s', hclear, -⟩ := clear_undoes_growth hgrown (by decide) (by decide)
    fun _ _ => List.not_mem_nil
  exact ⟨d, s, s', hgrown, hclear⟩

end RCore.EasyFs
