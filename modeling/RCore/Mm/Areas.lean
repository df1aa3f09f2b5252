import RCore.Mm.MemorySet
import RCore.Mm.TableFrames

/-!
# Mapping and unmapping areas

The loops of `MapArea::map` and `MapArea::unmap`.  While an area is mapped page by page
the page table holds what it held before, `base`, and the pages the area has frames
for (`overlay`).
-/

namespace RCore.Mm

open RCore.Lib.Outcome Memory Function List Yields

/-! ## The frames of an area -/

variable {vpn : Nat}

namespace DataFrames

variable {ppn n : Nat}

theorem insert_of_lt {frames : List (Nat × Nat)} (h : ∀ entry ∈ frames, entry.1 < vpn) :
    insert vpn ppn frames = (none, frames ++ [(vpn, ppn)]) := by
  induction frames with
  | nil => rfl
  | cons entry frames ih =>
    obtain ⟨key, value⟩ := entry
    have hkey : key < vpn := h _ mem_cons_self
    rw [insert, if_neg (by omega), if_neg (by omega),
      ih fun entry hmem => h entry (mem_cons_of_mem _ hmem)]
    rfl

end DataFrames

variable {area : MapArea}

namespace MapArea

/-- The frames that the area owns. -/
def frames (area : MapArea) : List Nat :=
  area.dataFrames.map (·.2)

/-- The pages that the area has frames for. -/
def keys (area : MapArea) : List Nat :=
  area.dataFrames.map (·.1)

/-- What the area maps a page to. -/
def entry (area : MapArea) (vpn : Nat) : Option (Nat × PTEFlags) :=
  (area.dataFrames.lookup vpn).map fun ppn => (ppn, area.mapPerm)

/-- The frames of the area hold zeros. -/
def Zeroed (area : MapArea) (bytes : Memory) : Prop :=
  ∀ p ∈ area.frames, ∀ off < 4096, bytes (4096 * p + off) = 0

theorem entry_eq_none : area.entry vpn = none ↔ vpn ∉ area.keys := by
  rw [entry, Option.map_eq_none_iff, lookup_eq_none_iff, keys, mem_map]
  constructor
  · rintro h ⟨p, hp, rfl⟩
    simpa using h p hp
  · intro h p hp
    exact bne_iff_ne.mpr fun heq => h ⟨p, hp, heq.symm⟩

theorem mem_frames_of_entry {e : Nat × PTEFlags} (h : area.entry vpn = some e) :
    e.1 ∈ area.frames := by
  obtain ⟨ppn, hppn, rfl⟩ := Option.map_eq_some_iff.mp h
  obtain ⟨before, after, heq, -⟩ := lookup_eq_some_iff.mp hppn
  simp [frames, heq]

end MapArea

/-- A mapping and then an area. -/
def overlay (base : Mapping) (area : MapArea) : Mapping :=
  fun vpn => (base vpn).or (area.entry vpn)

theorem overlay_append {base : Mapping} (hbase : base vpn = none) (hnew : vpn ∉ area.keys) :
    overlay base { area with dataFrames := area.dataFrames ++ [(vpn, ppn)] } =
      update (overlay base area) vpn (some (ppn, area.mapPerm)) := by
  have hentry := MapArea.entry_eq_none.mpr hnew
  rw [MapArea.entry, Option.map_eq_none_iff] at hentry
  funext other
  simp only [overlay, MapArea.entry, lookup_append]
  by_cases hother : other = vpn
  · subst hother
    simp [hbase, hentry]
  · have hfalse : (other == vpn) = false := by simpa using hother
    simp [update_of_ne hother, overlay, MapArea.entry, lookup_cons, hfalse]

theorem overlay_cons {base : Mapping} {rest : List (Nat × Nat)} (hbase : base vpn = none)
    (hframes : area.dataFrames = (vpn, ppn) :: rest) (hnew : vpn ∉ rest.map (·.1)) :
    overlay base { area with dataFrames := rest } =
      update (overlay base area) vpn none := by
  have hrest : rest.lookup vpn = none := by
    rw [lookup_eq_none_iff]
    intro p hp
    exact bne_iff_ne.mpr fun heq => hnew (mem_map.mpr ⟨p, hp, heq.symm⟩)
  funext other
  simp only [overlay, MapArea.entry]
  by_cases hother : other = vpn
  · subst hother
    simp [hbase, hrest]
  · have hfalse : (other == vpn) = false := by simpa using hother
    simp [update_of_ne hother, overlay, MapArea.entry, hframes, lookup_cons, hfalse]

/-! ## The loop of `map` -/

/-- The page table holds `base` and the area; its frames, those of the area and the
others are in use. -/
structure Laid (low high : Nat) (rest : List Nat) (base : Mapping) (area : MapArea)
    (t : PageTable) (s : PhysMem) : Prop where
  table : ∃ nodes, TableInv t s.bytes (overlay base area) nodes
  owns : s.allocator.Owns low high (t.frames ++ (area.frames ++ rest))

variable {low high : Nat} {rest : List Nat} {base : Mapping} {area area' : MapArea}
  {t t' : PageTable} {s s' : PhysMem} {vpn : Nat}

/-- What mapping `n` pages of an area adds. -/
structure Extended (low high : Nat) (rest : List Nat) (base : Mapping) (n : Nat) (area : MapArea)
    (t : PageTable) (s : PhysMem) (area' : MapArea) (t' : PageTable) (s' : PhysMem) : Prop where
  laid : Laid low high rest base area' t' s'
  same : area' = { area with dataFrames := area'.dataFrames }
  root : t'.rootPpn = t.rootPpn
  sub : t.frames ⊆ t'.frames
  mono : area.frames ⊆ area'.frames
  length : t'.frames.length + area'.frames.length ≤ t.frames.length + area.frames.length + 3 * n
  bytes : SameOutside (t'.frames ++ area'.frames) s.bytes s'.bytes

theorem Extended.refl (h : Laid low high rest base area t s) (n : Nat) :
    Extended low high rest base n area t s area t s :=
  ⟨h, rfl, rfl, Subset.refl _, Subset.refl _, Nat.le_add_right _ _, .refl _ _⟩

theorem Extended.trans {m : Nat} {area'' : MapArea} {t'' : PageTable} {s'' : PhysMem}
    (h : Extended low high rest base n area t s area' t' s')
    (h' : Extended low high rest base m area' t' s' area'' t'' s'') :
    Extended low high rest base (n + m) area t s area'' t'' s'' where
  laid := h'.laid
  same := by
    rw [h'.same, h.same]
  root := h'.root.trans h.root
  sub := Subset.trans h.sub h'.sub
  mono := Subset.trans h.mono h'.mono
  length := by
    have := h.length
    have := h'.length
    omega
  bytes := h.bytes.trans h'.bytes (append_subset.mpr ⟨subset_append_of_subset_left _ h'.sub,
      subset_append_of_subset_right _ h'.mono⟩)

theorem TableInv.sameOutside {mapping : Mapping} {nodes : List (Fin 512) → Option Nat}
    {bytes bytes' : Memory} {frames : List Nat} (h : TableInv t bytes mapping nodes)
    (hsame : SameOutside frames bytes bytes') (hdisjoint : ∀ p ∈ t.frames, p ∉ frames) :
    TableInv t bytes' mapping nodes :=
  h.congr fun x hx => hsame x (hdisjoint _ hx)

theorem MapArea.Zeroed.push {bytes bytes' : Memory} (h : area.Zeroed bytes) (vpn : Nat)
    (hppn : ppn < 2 ^ 44)
    (hkept : ∀ p ∈ ppn :: area.frames, ∀ off < 4096,
      bytes' (4096 * p + off) = bytes.clearFrame ppn (4096 * p + off)) :
    { area with dataFrames := area.dataFrames ++ [(vpn, ppn)] }.Zeroed bytes' := by
  intro p hp off hoff
  simp only [frames, map_append, map_cons, map_nil, mem_append, mem_singleton] at hp
  by_cases heq : p = ppn
  · subst heq
    rw [hkept p mem_cons_self off hoff, clearFrame, PhysPageNum.toPhysAddr_eq hppn, pageSize,
      if_pos (by omega)]
  · have hmem : p ∈ area.frames := hp.resolve_right heq
    have hclear : SameOutside [ppn] bytes (bytes.clearFrame ppn) :=
      bytes.sameOutside_clearFrame hppn (by simp)
    rw [hkept p (mem_cons_of_mem _ hmem) off hoff, hclear _ (by
      rw [(by omega : (4096 * p + off) / 4096 = p)]; simpa using heq)]
    exact h p hmem off hoff

theorem MapArea.mapOne_yields (h : Laid low high rest base area t s)
    (hframed : area.mapType = .framed) (hvpn : vpn < 2 ^ 27) (hkeys : ∀ k ∈ area.keys, k < vpn) :
    Yields (area.mapOne t s vpn)
      (base vpn ≠ none ∨ high < low + (t.frames.length + area.frames.length + rest.length) + 3)
      fun r => base vpn = none ∧ r.1.keys = area.keys ++ [vpn] ∧
        Extended low high rest base 1 area t s r.1 r.2.1 r.2.2 ∧
        (area.Zeroed s.bytes → r.1.Zeroed r.2.2.bytes) := by
  obtain ⟨nodes, htable⟩ := h.table
  have hnew : vpn ∉ area.keys := fun hmem => Nat.lt_irrefl _ (hkeys vpn hmem)
  have hinsert : ∀ ppn, DataFrames.insert vpn ppn area.dataFrames =
      (none, area.dataFrames ++ [(vpn, ppn)]) := fun ppn =>
    DataFrames.insert_of_lt fun entry hmem => hkeys _ (mem_map_of_mem hmem)
  cases halloc : s.allocator.alloc with
  | none =>
    have hfull := h.owns.alloc_eq_none halloc
    simp only [length_append] at hfull
    simp only [mapOne, hframed, frameAlloc, halloc, do_none, Yields]
    omega
  | some r =>
    obtain ⟨ppn, allocator⟩ := r
    obtain ⟨hfresh, howns⟩ := h.owns.alloc halloc
    have hppn := StackFrameAllocator.alloc_lt halloc
    have hclear : SameOutside [ppn] s.bytes (s.bytes.clearFrame ppn) :=
      s.bytes.sameOutside_clearFrame hppn (by simp)
    have htable' : TableInv t (s.bytes.clearFrame ppn) (overlay base area) nodes := by
      refine htable.sameOutside hclear fun p hp hmem => hfresh ?_
      rw [← mem_singleton.mp hmem]
      exact mem_append_left _ hp
    have howns' : allocator.Owns low high (t.frames ++ (ppn :: (area.frames ++ rest))) :=
      howns.congr fun p => by
        simp only [count_append, count_cons]
        omega
    have hnone : area.entry vpn = none := entry_eq_none.mpr hnew
    have hmap := TableInv.map_yields (s := ⟨s.bytes.clearFrame ppn, allocator⟩) htable' howns' hvpn
      hppn area.mapPerm
    simp only [mapOne, hframed, frameAlloc, halloc, do_some, hinsert, dropFrame]
    refine bind (hmap.mono ?_ fun _ _ hpost => hpost) ?_
    · simp only [overlay, hnone, Option.or_none, length_cons, length_append]
      rintro (hmapped | hfull)
      · exact .inl hmapped
      · exact .inr (by omega)
    · rintro ⟨t', s'⟩ - ⟨hfree, hinv, hgrown⟩
      simp only [overlay, hnone, Option.or_none] at hfree
      rw [← overlay_append hfree hnew] at hinv
      refine ⟨hfree, by simp [keys], ⟨⟨hinv, ?_⟩, by simp [hframed], hgrown.root, hgrown.sub, ?_, ?_,
        ?_⟩, fun hzero => ?_⟩
      · refine hgrown.owns.congr fun p => ?_
        simp only [frames, map_append, map_cons, map_nil, count_append, count_cons, count_nil]
        omega
      · simp [frames]
      · have hlength : t'.frames.length ≤ t.frames.length + 2 := hgrown.length
        simp only [frames, map_append, map_cons, map_nil, length_append,
          length_map, length_cons, length_nil]
        omega
      · refine (hclear.mono ?_).trans (hgrown.bytes.mono (subset_append_left _ _)) (Subset.refl _)
        simp [frames]
      · have hnodup := hgrown.owns.nodup
        rw [nodup_append] at hnodup
        -- the frames of the area are not those of the table
        refine hzero.push vpn hppn fun p hp off hoff => hgrown.bytes _ ?_
        rw [(by omega : (4096 * p + off) / 4096 = p)]
        intro hmem
        refine hnodup.2.2 p hmem p ?_ rfl
        rcases mem_cons.mp hp with rfl | hp
        · exact mem_cons_self
        · exact mem_cons_of_mem _ (mem_append_left _ hp)

/-- `map` returns unless one of the pages is mapped or frames run out. -/
theorem MapArea.mapLoop_yields (h : Laid low high rest base area t s)
    (hframed : area.mapType = .framed) (hvpn : vpn + n ≤ 2 ^ 27)
    (hkeys : ∀ k ∈ area.keys, k < vpn) :
    Yields (area.mapLoop t s vpn n)
      ((∃ v, vpn ≤ v ∧ v < vpn + n ∧ base v ≠ none) ∨
        high < low + (t.frames.length + area.frames.length + rest.length) + 3 * n)
      fun r => (∀ v, vpn ≤ v → v < vpn + n → base v = none) ∧
        r.1.keys = area.keys ++ range' vpn n ∧
        Extended low high rest base n area t s r.1 r.2.1 r.2.2 ∧
        (area.Zeroed s.bytes → r.1.Zeroed r.2.2.bytes) := by
  induction n generalizing area t s vpn with
  | zero => exact ⟨fun v hlow hhigh => by omega, by simp, .refl h 0, id⟩
  | succ n ih =>
    rw [mapLoop]
    refine bind (mono (mapOne_yields h hframed (by omega) hkeys) ?_
      fun _ _ hpost => hpost) ?_
    · rintro (hmapped | hfull)
      · exact .inl ⟨vpn, Nat.le_refl _, by omega, hmapped⟩
      · exact .inr (by omega)
    · rintro ⟨area₁, t₁, s₁⟩ - ⟨hfree, hkeys₁, hext, hzero⟩
      simp only at hfree hkeys₁ hext hzero
      have hframed₁ : area₁.mapType = .framed := by rw [hext.same, hframed]
      refine mono (ih hext.laid hframed₁ (by omega) ?_) ?_ ?_
      · intro k hk
        rw [hkeys₁, mem_append, mem_singleton] at hk
        rcases hk with hk | rfl
        · exact Nat.lt_succ_of_lt (hkeys k hk)
        · exact Nat.lt_succ_self _
      · have hlength := hext.length
        rintro (⟨v, hlow, hhigh, hmapped⟩ | hfull)
        · exact .inl ⟨v, by omega, by omega, hmapped⟩
        · exact .inr (by omega)
      · rintro ⟨area₂, t₂, s₂⟩ - ⟨hfree₂, hkeys₂, hext₂, hzero₂⟩
        refine ⟨fun v hlow hhigh => ?_, ?_, ?_, fun hold => hzero₂ (hzero hold)⟩
        · rcases Nat.eq_or_lt_of_le hlow with rfl | hlt
          · exact hfree
          · exact hfree₂ v hlt (by omega)
        · simp only at hkeys₂ ⊢
          rw [hkeys₂, hkeys₁, append_assoc, range'_succ]
          rfl
        · rw [Nat.add_comm n 1]
          exact hext.trans hext₂

/-! ## The loop of `unmap` -/

/-- What unmapping the rest of an area gives back: its frames, the last one first. -/
structure Cleared (low high : Nat) (rest : List Nat) (base : Mapping) (area : MapArea)
    (t : PageTable) (s s' : PhysMem) : Prop where
  table : ∀ nodes, TableInv t s.bytes (overlay base area) nodes → TableInv t s'.bytes base nodes
  owns : s'.allocator.Owns low high (t.frames ++ rest)
  allocator : s'.allocator =
    { s.allocator with recycled := area.frames.reverse ++ s.allocator.recycled }
  bytes : SameOutside t.frames s.bytes s'.bytes

theorem MapArea.unmapOne_eq (h : Laid low high rest base area t s)
    (hframed : area.mapType = .framed) (hvpn : vpn < 2 ^ 27) (hbase : base vpn = none)
    {frames : List (Nat × Nat)} (hframes : area.dataFrames = (vpn, ppn) :: frames)
    (hnew : vpn ∉ frames.map (·.1)) :
    ∃ s', area.unmapOne t s vpn = some ({ area with dataFrames := frames }, s') ∧
      Laid low high rest base { area with dataFrames := frames } t s' ∧
      (∀ nodes, TableInv t s.bytes (overlay base area) nodes →
        TableInv t s'.bytes (overlay base { area with dataFrames := frames }) nodes) ∧
      s'.allocator = { s.allocator with recycled := ppn :: s.allocator.recycled } ∧
      SameOutside t.frames s.bytes s'.bytes := by
  obtain ⟨nodes, htable⟩ := h.table
  have hmapped : overlay base area vpn = some (ppn, area.mapPerm) := by
    simp [overlay, hbase, entry, hframes]
  have hmem : ppn ∈ t.frames ++ (area.frames ++ rest) := by
    simp [MapArea.frames, hframes]
  obtain ⟨hdealloc, howns⟩ := h.owns.dealloc hmem
  let s₁ : PhysMem := { s with allocator := { s.allocator with
    recycled := ppn :: s.allocator.recycled } }
  have htable₁ : TableInv t s₁.bytes (overlay base area) nodes := htable
  obtain ⟨s', hunmap, -⟩ := htable₁.unmap_spec hvpn hmapped
  obtain ⟨hallocator, hbytes⟩ := PageTable.unmap_keeps htable₁ hunmap
  have hinv : ∀ nodes, TableInv t s₁.bytes (overlay base area) nodes →
      TableInv t s'.bytes (overlay base { area with dataFrames := frames }) nodes := by
    intro nodes htable
    obtain ⟨s'', hunmap', hinv⟩ := htable.unmap_spec hvpn hmapped
    cases hunmap.symm.trans hunmap'
    rwa [overlay_cons hbase hframes hnew]
  refine ⟨s', ?_, ⟨⟨nodes, hinv nodes htable₁⟩, ?_⟩, hinv, hallocator, hbytes⟩
  · simp only [unmapOne, hframed, hframes, DataFrames.remove, if_true, dropFrame, frameDealloc,
      hdealloc, do_some]
    rw [hunmap]
    rfl
  · rw [hallocator]
    refine howns.congr fun p => ?_
    simp only [MapArea.frames, hframes, map_cons, count_erase, count_append, count_cons]
    omega

/-- `unmap` of an area whose pages are not mapped otherwise returns. -/
theorem MapArea.unmapLoop_eq (h : Laid low high rest base area t s)
    (hframed : area.mapType = .framed) (hvpn : vpn + n ≤ 2 ^ 27)
    (hbase : ∀ v, vpn ≤ v → v < vpn + n → base v = none) (hkeys : area.keys = range' vpn n) :
    ∃ s', area.unmapLoop t s vpn n = some ({ area with dataFrames := [] }, s') ∧
      Cleared low high rest base area t s s' := by
  induction n generalizing area s vpn with
  | zero =>
    have hempty : area.dataFrames = [] := by simpa [keys] using hkeys
    have hbase : overlay base area = base := by
      funext v
      simp [overlay, entry, hempty]
    have harea : { area with dataFrames := [] } = area := by rw [← hempty]
    refine ⟨s, by rw [unmapLoop, harea], fun nodes htable => hbase ▸ htable, ?_, ?_, .refl _ _⟩
    · simpa [frames, hempty] using h.owns
    · simp [frames, hempty]
  | succ n ih =>
    rw [keys, range'_succ, map_eq_cons_iff] at hkeys
    obtain ⟨⟨v, ppn⟩, tail, hframes, rfl, htail⟩ := hkeys
    have hnew : v ∉ tail.map (·.1) := by
      rw [htail, mem_range'_1]
      omega
    obtain ⟨s₁, hone, hlaid, htable, hallocator, hbytes⟩ := unmapOne_eq h hframed (by omega)
      (hbase v (Nat.le_refl _) (by omega)) hframes hnew
    obtain ⟨s', hloop, hcleared⟩ := ih hlaid hframed (by omega)
      (fun w hlow hhigh => hbase w (by omega) (by omega)) htail
    refine ⟨s', ?_, fun nodes h => hcleared.table nodes (htable nodes h), hcleared.owns, ?_,
      hbytes.trans hcleared.bytes (Subset.refl _)⟩
    · simp only [unmapLoop, hone, do_some]
      exact hloop
    · rw [hcleared.allocator, hallocator]
      simp [frames, hframes]

end RCore.Mm
