import RCore.Mm.Spaces

/-!
# Address spaces of processes

`from_elf` makes the space of a program; threads insert and remove areas later.
Loading a program writes through the page table, and the entries it uses need not be
valid: an invalid one gives access to physical page 0.  None of these writes goes to a
page table.
-/

namespace RCore.Mm

open RCore.Lib.Outcome Memory List Option MapArea
open MemorySet (fromElf fromElfLoop newWithTrampoline newWithTrampoline_yields)

variable {p : Nat} {area' : MapArea}

variable {L : Layout} {ms ms' : MemorySet} {s s' : PhysMem} {rest : List Nat} {area : MapArea}
  {vpn : Nat}

/-! ## Writes through a page table -/

theorem PageTableEntry.ppn_lt (pte : PageTableEntry) : pte.ppn < 2 ^ 44 :=
  PhysPageNum.ofUsize_lt _

/-- The frames that entries of the space refer to: those of its areas, the trampoline
and, where an entry is not valid, page 0. -/
def MemorySet.targets (L : Layout) (ms : MemorySet) : List Nat :=
  0 :: L.trampolinePpn :: ms.dataFrames

theorem mappingOf_eq_some {areas : List MapArea} {e : Nat × PTEFlags}
    (h : mappingOf L areas vpn = some e) :
    (vpn = trampolineVpn ∧ e = (L.trampolinePpn, PTEFlags.R ||| PTEFlags.X)) ∨
      ∃ area ∈ areas, area.entry vpn = some e := by
  rw [mappingOf, or_eq_some_iff] at h
  rcases h with h | ⟨-, h⟩
  · rw [Layout.trampolineEntry, ite_none_right_eq_some, Option.some.injEq] at h
    exact .inl ⟨h.1, h.2.symm⟩
  · exact .inr (exists_of_findSome?_eq_some h)

namespace SpaceInv

theorem ppn_mem_targets (h : SpaceInv L ms s rest) {pte : PageTableEntry}
    (hpte : ms.translate s.bytes vpn = some pte) : pte.ppn ∈ ms.targets L := by
  obtain ⟨nodes, htable⟩ := h.table
  rw [MemorySet.translate, htable.translate_eq] at hpte
  obtain ⟨_, -, rfl⟩ := map_eq_some_iff.mp hpte
  cases he : mappingOf L ms.areas (vpn % 2 ^ 27) with
  | none =>
    have hzero : (leafEntry none).ppn = 0 := by decide
    rw [hzero]
    exact mem_cons_self
  | some e =>
    have hppn : (leafEntry (some e)).ppn = e.1 := PageTableEntry.ppn_new (htable.ppn_lt he) _
    rw [hppn]
    rcases mappingOf_eq_some he with ⟨-, rfl⟩ | ⟨area, hmem, hentry⟩
    · exact mem_cons_of_mem _ mem_cons_self
    · refine mem_cons_of_mem _ (mem_cons_of_mem _ ?_)
      exact mem_flatMap.mpr ⟨area, hmem, mem_frames_of_entry hentry⟩

theorem notMem_of_mem_targets (h : SpaceInv L ms s rest) (hp : p ∈ ms.targets L) :
    p ∉ ms.pageTable.frames ++ rest := by
  have hlow := L.trampolinePpn_lt
  intro hmem
  have hused : p ∈ ms.frames ++ rest := by
    rcases mem_append.mp hmem with hmem | hmem
    · exact mem_append_left _ (mem_append_left _ hmem)
    · exact mem_append_right _ hmem
  have hrange := (h.owns.mem_range hused).1
  rcases mem_cons.mp hp with rfl | hp
  · omega
  · rcases mem_cons.mp hp with rfl | hp
    · omega
    · have hnodup := h.owns.nodup
      rw [MemorySet.frames, append_assoc, nodup_append, nodup_append] at hnodup
      obtain ⟨-, ⟨-, -, hrest⟩, htable⟩ := hnodup
      rcases mem_append.mp hmem with hmem | hmem
      · exact htable p hmem p (mem_append_left _ hp) rfl
      · exact hrest p hp p hmem rfl

theorem write (h : SpaceInv L ms s rest) {bytes : Memory}
    (hbytes : SameOutside (ms.targets L) s.bytes bytes) :
    SpaceInv L ms { s with bytes := bytes } rest := by
  refine h.other ?_ h.owns
  exact fun x hx => hbytes x fun hmem =>
    h.notMem_of_mem_targets hmem (mem_append_left _ hx)

end SpaceInv

theorem Memory.sameOutside_writeBytes (m : Memory) (hlt : p < 2 ^ 44) {src : List UInt8}
    (hsrc : src.length ≤ 4096) {frames : List Nat} (hp : p ∈ frames) :
    SameOutside frames m (m.writeBytes p src) := by
  intro x hx
  rw [writeBytes, PhysPageNum.toPhysAddr_eq hlt, if_neg]
  intro hin
  exact hx ((by omega : x / 4096 = p) ▸ hp)

theorem length_le_of_mem_pages {data src : List UInt8} {n : Nat} (h : src ∈ pages data n) :
    src.length ≤ 4096 := by
  induction n generalizing data with
  | zero => simp [pages] at h
  | succ n ih =>
    rcases mem_cons.mp h with rfl | h
    · rw [length_take]
      exact Nat.min_le_left _ _
    · exact ih h

theorem SpaceInv.copyDataLoop_keeps (h : SpaceInv L ms s rest) {srcs : List (List UInt8)}
    (hsrcs : ∀ src ∈ srcs, src.length ≤ 4096) {bytes : Memory}
    (hcopy : copyDataLoop ms.pageTable s.bytes vpn srcs = some bytes) :
    SameOutside (ms.targets L) s.bytes bytes := by
  induction srcs generalizing s vpn with
  | nil =>
    cases hcopy
    exact .refl _ _
  | cons src srcs ih =>
    rw [copyDataLoop] at hcopy
    obtain ⟨pte, hpte, hcopy⟩ := bind_eq_some_iff.mp hcopy
    have hwrite : SameOutside (ms.targets L) s.bytes (s.bytes.writeBytes pte.ppn src) :=
      s.bytes.sameOutside_writeBytes pte.ppn_lt (hsrcs src mem_cons_self) (h.ppn_mem_targets hpte)
    have hinv := h.write hwrite
    have hrest := ih hinv (fun other hother => hsrcs other (mem_cons_of_mem _ hother)) hcopy
    exact hwrite.trans hrest (Subset.refl _)

/-! ## Loading a program -/

/-- A space has grown, and memory has changed only in its frames and where entries
refer to. -/
structure Loaded (L : Layout) (rest : List Nat) (ms : MemorySet) (s : PhysMem) (ms' : MemorySet)
    (s' : PhysMem) : Prop where
  inv : SpaceInv L ms' s' rest
  sub : ms.frames ⊆ ms'.frames
  bytes : SameOutside (0 :: L.trampolinePpn :: ms'.frames) s.bytes s'.bytes

theorem Loaded.trans {ms'' : MemorySet} {s'' : PhysMem} (h : Loaded L rest ms s ms' s')
    (h' : Loaded L rest ms' s' ms'' s'') : Loaded L rest ms s ms'' s'' where
  inv := h'.inv
  sub := Subset.trans h.sub h'.sub
  bytes := h.bytes.trans h'.bytes
    (cons_subset_cons _ (cons_subset_cons _ h'.sub))

theorem Pushed.sub_frames (h : Pushed L ms s rest area area' ms' s') : ms.frames ⊆ ms'.frames := by
  intro p hp
  rw [MemorySet.frames, MemorySet.dataFrames, h.areas, flatMap_append]
  rcases mem_append.mp hp with hp | hp
  · exact mem_append_left _ (h.sub hp)
  · exact mem_append_right _ (mem_append_left _ hp)

theorem Pushed.sub_area (h : Pushed L ms s rest area area' ms' s') :
    ms'.pageTable.frames ++ area'.frames ⊆ ms'.frames := by
  intro p hp
  rw [MemorySet.frames, MemorySet.dataFrames, h.areas, flatMap_append]
  rcases mem_append.mp hp with hp | hp
  · exact mem_append_left _ hp
  · refine mem_append_right _ (mem_append_right _ ?_)
    simpa using hp

theorem SpaceInv.notMem_of_old (h : SpaceInv L ms' s' rest)
    (hareas : ms'.areas = ms.areas ++ [area']) (hmem : area ∈ ms.areas) (hp : p ∈ area.frames) :
    p ∉ ms'.pageTable.frames ++ area'.frames := by
  have hnodup : ms'.frames.Nodup := (nodup_append.mp h.owns.nodup).1
  rw [MemorySet.frames, MemorySet.dataFrames, hareas, flatMap_append, nodup_append,
    nodup_append] at hnodup
  obtain ⟨-, ⟨-, -, hapart⟩, htable⟩ := hnodup
  have hin : p ∈ ms.areas.flatMap frames := mem_flatMap.mpr ⟨area, hmem, hp⟩
  intro hboth
  rcases mem_append.mp hboth with hboth | hboth
  · exact htable p hboth p (mem_append_left _ hin) rfl
  · exact hapart p hin p (mem_flatMap.mpr ⟨area', by simp, hboth⟩) rfl

theorem Pushed.loaded (h : Pushed L ms s rest area area' ms' s') :
    Loaded L rest ms s ms' s' where
  inv := h.inv
  sub := h.sub_frames
  bytes := h.bytes.mono fun _ hp =>
    mem_cons_of_mem _ (mem_cons_of_mem _ (h.sub_area hp))

theorem SpaceInv.push_data (h : SpaceInv L ms s rest) (hfresh : area.Fresh) {data : List UInt8}
    (hpush : ms.push s area (some data) = some (ms', s')) : Loaded L rest ms s ms' s' := by
  simp only [MemorySet.push, do_eq_some_iff, Option.some.injEq, Prod.mk.injEq] at hpush
  obtain ⟨⟨area', t', s₁⟩, hmap, s₂, hcopy, rfl, rfl⟩ := hpush
  have hpushed := (h.map_yields hfresh).of_eq_some hmap
  simp only at hpushed hcopy
  rw [copyData, ite_none_right_eq_some] at hcopy
  obtain ⟨-, hcopy⟩ := hcopy
  simp only [do_eq_some_iff, Option.some.injEq] at hcopy
  obtain ⟨bytes, hcopy, rfl⟩ := hcopy
  have hbytes := hpushed.inv.copyDataLoop_keeps (fun _ => length_le_of_mem_pages) hcopy
  have hloaded := hpushed.loaded
  have hsub : MemorySet.targets L ⟨t', ms.areas ++ [area']⟩ ⊆
      0 :: L.trampolinePpn :: MemorySet.frames ⟨t', ms.areas ++ [area']⟩ :=
    cons_subset_cons _ (cons_subset_cons _ (subset_append_right _ _))
  have hcopied := hbytes.mono hsub
  have hall := hloaded.bytes.trans hcopied (Subset.refl _)
  exact ⟨hpushed.inv.write hbytes, hloaded.sub, hall⟩

theorem SpaceInv.fromElfLoop_loaded (h : SpaceInv L ms s rest) {input : List UInt8}
    {headers : List ProgramHeader} {maxEndVpn maxEndVpn' : Nat}
    (hload : fromElfLoop input headers ms s maxEndVpn = some (ms', s', maxEndVpn')) :
    Loaded L rest ms s ms' s' := by
  induction headers generalizing ms s maxEndVpn with
  | nil =>
    simp only [fromElfLoop, Option.some.injEq, Prod.mk.injEq] at hload
    obtain ⟨rfl, rfl, -⟩ := hload
    exact ⟨h, Subset.refl _, .refl _ _⟩
  | cons ph headers ih =>
    rw [fromElfLoop] at hload
    split at hload
    · simp only [do_eq_some_iff] at hload
      obtain ⟨area, hnew, data, -, ⟨ms₁, s₁⟩, hpush, hload⟩ := hload
      have hfresh := fresh_of_new hnew (VirtAddr.ofUsize_lt _) (VirtAddr.ofUsize_lt _)
      have hfirst := h.push_data hfresh hpush
      exact hfirst.trans (ih hfirst.inv hload)
    · exact ih h hload

theorem SpaceInv.of_fromElf {parse : List UInt8 → Option ElfFile} {elfData : List UInt8}
    {base entry : Nat} (howns : s.allocator.Owns L.low L.high rest)
    (hload : fromElf parse L.strampoline s elfData = some ((ms', base, entry), s')) :
    SpaceInv L ms' s' rest ∧
      SameOutside (0 :: L.trampolinePpn :: ms'.frames) s.bytes s'.bytes := by
  simp only [fromElf, do_eq_some_iff, Option.some.injEq, Prod.mk.injEq] at hload
  obtain ⟨⟨ms₀, s₀⟩, hbare, ⟨ms₁, s₁⟩, htrampoline, elf, -, ⟨ms₂, s₂, maxEndVpn⟩, hloop,
    ⟨rfl, -, -⟩, rfl⟩ := hload
  have hnew : newWithTrampoline L s = some (ms₁, s₁) := by
    rw [newWithTrampoline, hbare]
    exact htrampoline
  obtain ⟨hinv, -, -, hbytes⟩ := (newWithTrampoline_yields howns).of_eq_some hnew
  have hloaded := hinv.fromElfLoop_loaded hloop
  have hsub : ms₁.frames ⊆ 0 :: L.trampolinePpn :: ms₂.frames :=
    fun p hp => mem_cons_of_mem _ (mem_cons_of_mem _ (hloaded.sub hp))
  have hfirst := hbytes.mono hsub
  exact ⟨hloaded.inv, hfirst.trans hloaded.bytes (Subset.refl _)⟩

theorem MemorySet.fromElf_base_aligned {parse : List UInt8 → Option ElfFile} {strampoline : Nat}
    {elfData : List UInt8} {base entry : Nat}
    (hload : fromElf parse strampoline s elfData = some ((ms', base, entry), s')) :
    base % 4096 = 0 := by
  simp only [fromElf, do_eq_some_iff, Option.some.injEq, Prod.mk.injEq] at hload
  obtain ⟨-, -, -, -, -, -, ⟨-, -, maxEndVpn⟩, -, ⟨-, rfl, -⟩, -⟩ := hload
  rw [usizeAdd, VirtPageNum.toVirtAddr, usizeShl, Nat.shiftLeft_eq, pageSizeBits, pageSize]
  omega

end RCore.Mm
