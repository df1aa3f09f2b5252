import RCore.Mm.Isolation

/-!
# All address spaces

The spaces of all processes share one frame allocator.  What happens to one of them leaves
the others as they are.
-/

namespace RCore.Mm

open RCore.Lib.Outcome Memory List

variable {L : Layout} {ms ms' : MemorySet} {s s' : PhysMem} {rest kernel : List Nat}
  {before after spaces : List MemorySet}

/-- What holds for a space apart from the allocator. -/
structure SpaceOk (L : Layout) (ms : MemorySet) (bytes : Memory) : Prop where
  table : ∃ nodes, TableInv ms.pageTable bytes (mappingOf L ms.areas) nodes
  complete : ∀ area ∈ ms.areas, area.Complete
  apart : ms.areas.Pairwise Apart

/-- The frames of all spaces and those of the kernel are in use. -/
structure SpacesInv (L : Layout) (spaces : List MemorySet) (s : PhysMem) (kernel : List Nat) :
    Prop where
  ok : ∀ ms ∈ spaces, SpaceOk L ms s.bytes
  owns : s.allocator.Owns L.low L.high (spaces.flatMap MemorySet.frames ++ kernel)

theorem SpaceInv.ok (h : SpaceInv L ms s rest) : SpaceOk L ms s.bytes :=
  ⟨h.table, h.complete, h.apart⟩

theorem SpaceOk.congr {bytes bytes' : Memory} (h : SpaceOk L ms bytes)
    (hsame : ∀ x, x / 4096 ∈ ms.pageTable.frames → bytes' x = bytes x) : SpaceOk L ms bytes' := by
  obtain ⟨nodes, htable⟩ := h.table
  exact ⟨⟨nodes, htable.congr hsame⟩, h.complete, h.apart⟩

theorem mem_frames_of_mem_table {p : Nat} (hmem : ms ∈ spaces) (hp : p ∈ ms.pageTable.frames) :
    p ∈ spaces.flatMap MemorySet.frames :=
  mem_flatMap.mpr ⟨ms, hmem, mem_append_left _ hp⟩

namespace SpacesInv

theorem space (h : SpacesInv L (before ++ ms :: after) s kernel) :
    SpaceInv L ms s ((before ++ after).flatMap MemorySet.frames ++ kernel) := by
  have hok := h.ok ms (by simp)
  refine ⟨hok.table, h.owns.congr fun p => ?_, hok.complete, hok.apart⟩
  simp only [flatMap_append, flatMap_cons, count_append]
  omega

theorem other {kernel' : List Nat} (h : SpacesInv L spaces s kernel)
    (hsame : ∀ ms ∈ spaces, ∀ x, x / 4096 ∈ ms.pageTable.frames → s'.bytes x = s.bytes x)
    (howns : s'.allocator.Owns L.low L.high (spaces.flatMap MemorySet.frames ++ kernel')) :
    SpacesInv L spaces s' kernel' :=
  ⟨fun ms hmem => (h.ok ms hmem).congr (hsame ms hmem), howns⟩

theorem add {kernel₀ : List Nat} (h : SpacesInv L (before ++ after) s kernel₀)
    (hms : SpaceInv L ms s' ((before ++ after).flatMap MemorySet.frames ++ kernel))
    (hbytes : SameOutside (0 :: L.trampolinePpn :: ms.frames) s.bytes s'.bytes) :
    SpacesInv L (before ++ ms :: after) s' kernel := by
  have hothers : ∀ other ∈ before ++ after, SpaceOk L other s'.bytes := by
    intro other hmem
    refine (h.ok other hmem).congr fun x hx => hbytes x (hms.notMem_of_mem_rest ?_)
    exact mem_append_left _ (mem_frames_of_mem_table hmem hx)
  refine ⟨fun other hmem => ?_, hms.owns.congr fun p => ?_⟩
  · rcases mem_append.mp hmem with hmem | hmem
    · exact hothers other (mem_append_left _ hmem)
    · rcases mem_cons.mp hmem with rfl | hmem
      · exact hms.ok
      · exact hothers other (mem_append_right _ hmem)
  · simp only [flatMap_append, flatMap_cons, count_append]
    omega

theorem remove {kernel' : List Nat} (h : SpacesInv L (before ++ ms :: after) s kernel)
    (hbytes : s'.bytes = s.bytes)
    (howns : s'.allocator.Owns L.low L.high ((before ++ after).flatMap MemorySet.frames ++
      kernel')) : SpacesInv L (before ++ after) s' kernel' := by
  refine ⟨fun other hmem => ?_, howns⟩
  rw [hbytes]
  refine h.ok other ?_
  rcases mem_append.mp hmem with hmem | hmem
  · exact mem_append_left _ hmem
  · exact mem_append_right _ (mem_cons_of_mem _ hmem)

section

variable (h : SpacesInv L (before ++ ms :: after) s kernel)
include h

theorem change (hms : SpaceInv L ms' s' ((before ++ after).flatMap MemorySet.frames ++ kernel))
    (hbytes : SameOutside (0 :: L.trampolinePpn :: ms'.frames) s.bytes s'.bytes) :
    SpacesInv L (before ++ ms' :: after) s' kernel := by
  have howns : s.allocator.Owns L.low L.high
      ((before ++ after).flatMap MemorySet.frames ++ (ms.frames ++ kernel)) := by
    refine h.owns.congr fun p => ?_
    simp only [flatMap_append, flatMap_cons, count_append]
    omega
  exact (h.remove rfl howns).add hms hbytes

theorem write {bytes : Memory} (hbytes : SameOutside (ms.targets L) s.bytes bytes) :
    SpacesInv L (before ++ ms :: after) { s with bytes := bytes } kernel := by
  refine h.change (h.space.write hbytes) (hbytes.mono ?_)
  exact cons_subset_cons _ (cons_subset_cons _ (subset_append_right _ _))

theorem step (hstep : SpaceStep ms s ms' s') : SpacesInv L (before ++ ms' :: after) s' kernel := by
  obtain ⟨hinv, hbytes⟩ := h.space.step hstep
  exact h.change hinv (hbytes.mono fun p hp =>
    mem_cons_of_mem _ (mem_cons_of_mem _ hp))

end

end SpacesInv

/-! ## Dropping frames -/

theorem dropFrames_eq {low high : Nat} {frames : List Nat}
    (howns : s.allocator.Owns low high (frames ++ rest)) :
    ∃ s', dropFrames s frames = some s' ∧ s'.bytes = s.bytes ∧ s'.allocator.Owns low high rest := by
  induction frames generalizing s with
  | nil => exact ⟨s, rfl, rfl, howns⟩
  | cons p frames ih =>
    obtain ⟨hdealloc, howns'⟩ := howns.dealloc (mem_append_left _ mem_cons_self)
    rw [cons_append, erase_cons_head] at howns'
    obtain ⟨s', hdrop, hbytes, howns''⟩ :=
      ih (s := { s with allocator := { s.allocator with
        recycled := p :: s.allocator.recycled } }) howns'
    refine ⟨s', ?_, hbytes, howns''⟩
    rw [dropFrames, foldlM_cons, frameDealloc, hdealloc]
    exact hdrop

namespace SpacesInv

section

variable (h : SpacesInv L (before ++ ms :: after) s kernel)
include h

/-- `recycle_data_pages` of a process that exits leaves the frames of its page table. -/
theorem recycleDataPages (hrecycle : ms.recycleDataPages s = some (ms', s')) :
    SpacesInv L (before ++ after) s' (ms'.pageTable.frames ++ kernel) := by
  have howns : s.allocator.Owns L.low L.high (ms.dataFrames ++
      ((before ++ after).flatMap MemorySet.frames ++ (ms.pageTable.frames ++ kernel))) := by
    refine h.owns.congr fun p => ?_
    simp only [flatMap_append, flatMap_cons, count_append, MemorySet.frames]
    omega
  obtain ⟨s₁, hdrop, hbytes, howns₁⟩ := dropFrames_eq howns
  have heq : ms.recycleDataPages s = some ({ ms with areas := [] }, s₁) := by
    rw [MemorySet.recycleDataPages]
    change (dropFrames s ms.dataFrames).bind _ = _
    rw [hdrop]
    rfl
  cases hrecycle.symm.trans heq
  exact h.remove hbytes howns₁

theorem drop_returns : ∃ s', ms.drop s = some s' ∧ SpacesInv L (before ++ after) s' kernel := by
  have howns : s.allocator.Owns L.low L.high (ms.pageTable.frames ++ (ms.dataFrames ++
      ((before ++ after).flatMap MemorySet.frames ++ kernel))) := by
    refine h.owns.congr fun p => ?_
    simp only [flatMap_append, flatMap_cons, count_append, MemorySet.frames]
    omega
  obtain ⟨s₁, hdrop₁, hbytes₁, howns₁⟩ := dropFrames_eq howns
  obtain ⟨s₂, hdrop₂, hbytes₂, howns₂⟩ := dropFrames_eq howns₁
  refine ⟨s₂, ?_, h.remove (hbytes₂.trans hbytes₁) howns₂⟩
  rw [MemorySet.drop, hdrop₁]
  exact hdrop₂

theorem drop (hdrop : ms.drop s = some s') : SpacesInv L (before ++ after) s' kernel := by
  obtain ⟨s₁, hreturns, hinv⟩ := h.drop_returns
  cases hdrop.symm.trans hreturns
  exact hinv

end

theorem load {parse : List UInt8 → Option ElfFile} {elfData : List UInt8} {base entry : Nat}
    (h : SpacesInv L (before ++ ms :: after) s kernel)
    (hload : MemorySet.fromElf parse L.strampoline s elfData = some ((ms', base, entry), s')) :
    SpacesInv L (before ++ ms :: ms' :: after) s' kernel := by
  rw [append_cons] at h
  obtain ⟨hinv, hbytes⟩ := SpaceInv.of_fromElf h.owns hload
  have hadd := h.add hinv hbytes
  rwa [append_assoc] at hadd

theorem replace {parse : List UInt8 → Option ElfFile} {elfData : List UInt8} {base entry : Nat}
    {s₁ : PhysMem} (h : SpacesInv L (before ++ ms :: after) s kernel)
    (hload : MemorySet.fromElf parse L.strampoline s elfData = some ((ms', base, entry), s₁))
    (hdrop : ms.drop s₁ = some s') : SpacesInv L (before ++ ms' :: after) s' kernel :=
  (h.load hload).drop hdrop

end SpacesInv

end RCore.Mm
