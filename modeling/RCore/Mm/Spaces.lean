import RCore.Mm.Areas

/-!
# Address spaces over their runs

The invariant of a `MemorySet`: its areas are disjoint, its page table maps exactly
their pages and the trampoline, and the frames of the table and of the areas are all
different.  It holds after every sequence of `insert_framed_area` and
`remove_area_with_start_vpn`.
-/

namespace RCore.Mm

open RCore.Lib.Outcome Memory List Option MapArea Yields
open VirtAddr (ofUsize floor ceil toVirtPageNum)

variable {startVa endVa startVpn : Nat} {perm : MapPermission}

/-- Where the kernel image and the frames are: the trampoline code is aligned and in
the image, which ends below the first frame of the allocator. -/
structure Layout where
  strampoline : Nat
  low : Nat
  high : Nat
  aligned : strampoline % 4096 = 0
  below : strampoline < 4096 * low
  low_le : low ≤ high
  high_le : high ≤ 2 ^ 44

/-- The page of the trampoline, the last one. -/
def trampolineVpn : Nat := 2 ^ 27 - 1

namespace Layout

def trampolinePpn (L : Layout) : Nat := L.strampoline / 4096

theorem trampolinePpn_lt (L : Layout) : L.trampolinePpn < L.low := by
  have := L.below
  rw [trampolinePpn]
  omega

theorem trampolinePpn_lt_two_pow (L : Layout) : L.trampolinePpn < 2 ^ 44 :=
  Nat.lt_of_lt_of_le L.trampolinePpn_lt (Nat.le_trans L.low_le L.high_le)

/-- What `map_trampoline` maps. -/
def trampolineEntry (L : Layout) : Mapping :=
  fun vpn => if vpn = trampolineVpn then some (L.trampolinePpn, PTEFlags.R ||| PTEFlags.X) else none

end Layout

namespace MapArea

def Covers (area : MapArea) (vpn : Nat) : Prop :=
  area.startVpn ≤ vpn ∧ vpn < area.endVpn

/-- The area has a frame for each page of its range, below the trampoline. -/
structure Complete (area : MapArea) : Prop where
  framed : area.mapType = .framed
  le : area.startVpn ≤ area.endVpn
  below : area.endVpn ≤ trampolineVpn
  keys_eq : area.keys = List.range' area.startVpn (area.endVpn - area.startVpn)

variable {area : MapArea} {vpn : Nat}

theorem Complete.mem_keys (h : area.Complete) : vpn ∈ area.keys ↔ area.Covers vpn := by
  have := h.le
  rw [h.keys_eq, mem_range'_1, Covers]
  omega

theorem Complete.entry_eq_none (h : area.Complete) : area.entry vpn = none ↔ ¬area.Covers vpn := by
  rw [MapArea.entry_eq_none, h.mem_keys]

theorem Complete.lt_trampolineVpn (h : area.Complete) (hcovers : area.Covers vpn) :
    vpn < trampolineVpn :=
  Nat.lt_of_lt_of_le hcovers.2 h.below

end MapArea

/-- No page is in both areas. -/
def Apart (area other : MapArea) : Prop :=
  ∀ vpn, area.Covers vpn → ¬other.Covers vpn

/-- A mapping and then framed areas. -/
def mappingOver (base : Mapping) (areas : List MapArea) : Mapping :=
  fun vpn => (base vpn).or (areas.findSome? (·.entry vpn))

/-- The trampoline and the areas. -/
def mappingOf (L : Layout) (areas : List MapArea) : Mapping :=
  fun vpn => (L.trampolineEntry vpn).or (areas.findSome? (·.entry vpn))

namespace MemorySet

/-- The frames of the areas. -/
def dataFrames (ms : MemorySet) : List Nat :=
  ms.areas.flatMap MapArea.frames

/-- All frames that the space owns. -/
def frames (ms : MemorySet) : List Nat :=
  ms.pageTable.frames ++ ms.dataFrames

end MemorySet

/-- The areas of a space are complete and apart; the page table maps their pages and
the trampoline; the frames of the space are in use, and `rest` are the others in use. -/
structure SpaceInv (L : Layout) (ms : MemorySet) (s : PhysMem) (rest : List Nat) : Prop where
  table : ∃ nodes, TableInv ms.pageTable s.bytes (mappingOf L ms.areas) nodes
  owns : s.allocator.Owns L.low L.high (ms.frames ++ rest)
  complete : ∀ area ∈ ms.areas, area.Complete
  apart : ms.areas.Pairwise Apart

/-! ## The mapping of areas -/

variable {L : Layout} {areas : List MapArea} {area : MapArea} {vpn : Nat}

theorem mappingOf_eq (L : Layout) (areas : List MapArea) :
    mappingOf L areas = mappingOver L.trampolineEntry areas := rfl

theorem mappingOver_nil (base : Mapping) : mappingOver base [] = base := by
  funext vpn
  simp [mappingOver]

theorem mappingOver_concat (base : Mapping) (areas : List MapArea) (area : MapArea) :
    mappingOver base (areas ++ [area]) = overlay (mappingOver base areas) area := by
  funext vpn
  simp [mappingOver, overlay, findSome?_append, Option.or_assoc]

theorem mappingOf_of_covers (hcomplete : ∀ area ∈ areas, area.Complete)
    (hapart : areas.Pairwise Apart) (hmem : area ∈ areas) (hcovers : area.Covers vpn) :
    mappingOf L areas vpn = area.entry vpn := by
  have hne : vpn ≠ trampolineVpn := Nat.ne_of_lt ((hcomplete area hmem).lt_trampolineVpn hcovers)
  rw [mappingOf, Layout.trampolineEntry, if_neg hne, none_or]
  induction areas with
  | nil => simp at hmem
  | cons first areas ih =>
    obtain ⟨hfirst, hapart⟩ := pairwise_cons.mp hapart
    rw [findSome?_cons]
    rcases mem_cons.mp hmem with rfl | hmem
    · cases hentry : area.entry vpn with
      | none =>
        exact absurd hcovers ((hcomplete area mem_cons_self).entry_eq_none.mp hentry)
      | some e => rfl
    · have hnone : first.entry vpn = none := by
        rw [(hcomplete first mem_cons_self).entry_eq_none]
        exact fun hboth => hfirst area hmem vpn hboth hcovers
      rw [hnone]
      exact ih (fun other hother => hcomplete other (mem_cons_of_mem _ hother)) hapart hmem

theorem Apart.not_covers_of_middle {before after : List MapArea} {other : MapArea}
    (hapart : (before ++ area :: after).Pairwise Apart) (hcovers : area.Covers vpn)
    (hother : other ∈ before ++ after) : ¬other.Covers vpn := by
  intro hboth
  obtain ⟨-, hafter, hbefore⟩ := pairwise_append.mp hapart
  rcases mem_append.mp hother with hother | hother
  · exact hbefore other hother area mem_cons_self vpn hboth hcovers
  · exact (pairwise_cons.mp hafter).1 other hother vpn hcovers hboth

/-- Complete areas that are apart and on pages that `base` leaves free. -/
structure Placed (base : Mapping) (areas : List MapArea) : Prop where
  complete : ∀ area ∈ areas, area.Complete
  apart : areas.Pairwise Apart
  free : ∀ area ∈ areas, ∀ vpn, area.Covers vpn → base vpn = none

namespace Placed

variable {base : Mapping} {before after : List MapArea}

theorem eq_none (h : Placed base areas) :
    mappingOver base areas vpn = none ↔ base vpn = none ∧ ∀ area ∈ areas, ¬area.Covers vpn := by
  rw [mappingOver, or_eq_none_iff, findSome?_eq_none_iff]
  exact and_congr_right fun _ => forall₂_congr fun area hmem =>
    (h.complete area hmem).entry_eq_none

theorem concat (h : Placed base areas) (hcomplete : area.Complete)
    (hfree : ∀ vpn, area.Covers vpn → mappingOver base areas vpn = none) :
    Placed base (areas ++ [area]) where
  complete := forall_mem_append.mpr ⟨h.complete, forall_mem_singleton.mpr hcomplete⟩
  apart := by
    refine pairwise_append.mpr ⟨h.apart, pairwise_singleton _ _, ?_⟩
    intro other hother last hlast vpn hboth hcovers
    rw [mem_singleton.mp hlast] at hcovers
    exact (h.eq_none.mp (hfree vpn hcovers)).2 other hother hboth
  free := forall_mem_append.mpr ⟨h.free, forall_mem_singleton.mpr fun vpn hcovers =>
    (h.eq_none.mp (hfree vpn hcovers)).1⟩

theorem remove (h : Placed base (before ++ area :: after)) : Placed base (before ++ after) :=
  have hsub : (before ++ after).Sublist (before ++ area :: after) :=
    (Sublist.refl before).append (sublist_cons_self area after)
  ⟨fun other hmem => h.complete other (hsub.subset hmem), h.apart.sublist hsub,
    fun other hmem => h.free other (hsub.subset hmem)⟩

theorem free_of_remove (h : Placed base (before ++ area :: after)) (hcovers : area.Covers vpn) :
    mappingOver base (before ++ after) vpn = none :=
  h.remove.eq_none.mpr ⟨h.free area (by simp) vpn hcovers,
    fun _ hother => Apart.not_covers_of_middle h.apart hcovers hother⟩

theorem mapping_eq (h : Placed base (before ++ area :: after)) :
    mappingOver base (before ++ area :: after) =
      overlay (mappingOver base (before ++ after)) area := by
  funext vpn
  have hswap : (area.entry vpn).or (after.findSome? (·.entry vpn)) =
      (after.findSome? (·.entry vpn)).or (area.entry vpn) := by
    by_cases hcovers : area.Covers vpn
    · have hnone : after.findSome? (·.entry vpn) = none :=
        findSome?_eq_none_iff.mpr fun other hother =>
          (h.complete other (by simp [hother])).entry_eq_none.mpr
            (Apart.not_covers_of_middle h.apart hcovers (mem_append_right _ hother))
      rw [hnone, none_or, or_none]
    · rw [(h.complete area (by simp)).entry_eq_none.mpr hcovers, none_or, or_none]
  have hcons : (area :: after).findSome? (·.entry vpn) =
      (area.entry vpn).or (after.findSome? (·.entry vpn)) := by
    rw [findSome?_cons]
    cases area.entry vpn <;> rfl
  rw [mappingOver, overlay, mappingOver, findSome?_append, findSome?_append, hcons, hswap,
    Option.or_assoc, Option.or_assoc]

end Placed

/-! ## Mapping an area -/

variable {ms ms' : MemorySet} {s s' : PhysMem} {rest : List Nat} {area' : MapArea}

theorem trampolineEntry_eq_none {vpn : Nat} :
    L.trampolineEntry vpn = none ↔ vpn ≠ trampolineVpn := by
  rw [Layout.trampolineEntry]
  split <;> simp [*]

namespace SpaceInv

theorem placed (h : SpaceInv L ms s rest) : Placed L.trampolineEntry ms.areas where
  complete := h.complete
  apart := h.apart
  free area hmem _ hcovers := trampolineEntry_eq_none.mpr
    (Nat.ne_of_lt ((h.complete area hmem).lt_trampolineVpn hcovers))

theorem mappingOf_eq_none (h : SpaceInv L ms s rest) :
    mappingOf L ms.areas vpn = none ↔
      vpn ≠ trampolineVpn ∧ ∀ area ∈ ms.areas, ¬area.Covers vpn := by
  rw [← trampolineEntry_eq_none]
  exact h.placed.eq_none

end SpaceInv

/-- `area'`, the area with frames for its pages, has been added to the space. -/
structure Pushed (L : Layout) (ms : MemorySet) (s : PhysMem) (rest : List Nat)
    (area area' : MapArea) (ms' : MemorySet) (s' : PhysMem) : Prop where
  inv : SpaceInv L ms' s' rest
  areas : ms'.areas = ms.areas ++ [area']
  same : area' = { area with dataFrames := area'.dataFrames }
  free : ∀ vpn, area.Covers vpn → mappingOf L ms.areas vpn = none
  root : ms'.pageTable.rootPpn = ms.pageTable.rootPpn
  sub : ms.pageTable.frames ⊆ ms'.pageTable.frames
  length : ms'.frames.length ≤ ms.frames.length + 3 * (area.endVpn - area.startVpn)
  bytes : SameOutside (ms'.pageTable.frames ++ area'.frames) s.bytes s'.bytes

theorem Pushed.available_le (h : SpaceInv L ms s rest)
    (hpushed : Pushed L ms s rest area area' ms' s') :
    s.allocator.available ≤ s'.allocator.available + 3 * (area.endVpn - area.startVpn) := by
  have hbefore := h.owns.add_available
  have hafter := hpushed.inv.owns.add_available
  have hlength := hpushed.length
  rw [length_append] at hbefore hafter
  omega

/-- The reasons why an area cannot be mapped. -/
def Refused (L : Layout) (ms : MemorySet) (rest : List Nat) (area : MapArea) : Prop :=
  (∃ vpn, area.Covers vpn ∧ mappingOf L ms.areas vpn ≠ none) ∨
    L.high < L.low + (ms.frames.length + rest.length) + 3 * (area.endVpn - area.startVpn)

/-- A new area of a page range. -/
structure MapArea.Fresh (area : MapArea) : Prop where
  framed : area.mapType = .framed
  empty : area.dataFrames = []
  le : area.startVpn ≤ area.endVpn
  start_lt : area.startVpn < 2 ^ 27
  end_le : area.endVpn ≤ 2 ^ 27

/-- A new area is mapped over whatever the table holds. -/
theorem MapArea.map_yields {low high : Nat} {base : Mapping} {t : PageTable}
    (htable : ∃ nodes, TableInv t s.bytes base nodes)
    (howns : s.allocator.Owns low high (t.frames ++ rest)) (hfresh : area.Fresh) :
    Yields (area.map t s)
      ((∃ vpn, area.Covers vpn ∧ base vpn ≠ none) ∨
        high < low + (t.frames.length + rest.length) + 3 * (area.endVpn - area.startVpn))
      fun r => (∀ vpn, area.Covers vpn → base vpn = none) ∧
        r.1.keys = range' area.startVpn (area.endVpn - area.startVpn) ∧
        Extended low high rest base (area.endVpn - area.startVpn) area t s r.1 r.2.1 r.2.2 ∧
        r.1.Zeroed r.2.2.bytes := by
  have hle := hfresh.le
  have hcovers : ∀ vpn, area.Covers vpn ↔
      area.startVpn ≤ vpn ∧ vpn < area.startVpn + (area.endVpn - area.startVpn) := by
    intro vpn
    rw [MapArea.Covers]
    omega
  have hnoFrames : area.frames = [] := by simp [MapArea.frames, hfresh.empty]
  have hkeys : area.keys = [] := by simp [keys, hfresh.empty]
  have hlaid : Laid low high rest base area t s := by
    obtain ⟨nodes, htable⟩ := htable
    have hsame : overlay base area = base := by
      funext vpn
      simp [overlay, MapArea.entry, hfresh.empty]
    exact ⟨⟨nodes, by rwa [hsame]⟩, by rwa [hnoFrames, nil_append]⟩
  refine mono (mapLoop_yields hlaid hfresh.framed
    (by have := hfresh.end_le; omega) (by simp [hkeys])) ?_ ?_
  · rintro (⟨vpn, hlow, hhigh, hmapped⟩ | hfull)
    · exact .inl ⟨vpn, (hcovers vpn).mpr ⟨hlow, hhigh⟩, hmapped⟩
    · rw [hnoFrames] at hfull
      exact .inr hfull
  · rintro ⟨area', t', s'⟩ - ⟨hfree, hkeys', hext, hzero⟩
    refine ⟨fun vpn hvpn => ?_, by simpa [hkeys] using hkeys', hext, hzero ?_⟩
    · obtain ⟨hlow, hhigh⟩ := (hcovers vpn).mp hvpn
      exact hfree vpn hlow hhigh
    · simp [Zeroed, hnoFrames]

theorem MapArea.Fresh.placed {base : Mapping} (hfresh : area.Fresh) (hplaced : Placed base areas)
    (htrampoline : mappingOver base areas trampolineVpn ≠ none)
    (hfree : ∀ vpn, area.Covers vpn → mappingOver base areas vpn = none)
    (hsame : area' = { area with dataFrames := area'.dataFrames })
    (hkeys : area'.keys = range' area.startVpn (area.endVpn - area.startVpn)) :
    Placed base (areas ++ [area']) := by
  have hstart : area'.startVpn = area.startVpn := by rw [hsame]
  have hend : area'.endVpn = area.endVpn := by rw [hsame]
  have hcovers : ∀ vpn, area'.Covers vpn → area.Covers vpn := by
    intro vpn hvpn
    rwa [MapArea.Covers, ← hstart, ← hend]
  have hbelow : area.endVpn ≤ trampolineVpn := by
    -- a range that ends later covers the page of the trampoline
    have hstart := hfresh.start_lt
    by_contra hlate
    refine htrampoline (hfree trampolineVpn ?_)
    rw [MapArea.Covers]
    rw [trampolineVpn] at hlate ⊢
    omega
  have hle := hfresh.le
  refine hplaced.concat ⟨by rw [hsame, hfresh.framed], by omega, by omega, ?_⟩ fun vpn hvpn =>
    hfree vpn (hcovers vpn hvpn)
  rw [hkeys, hstart, hend]

/-- A new area is mapped next to the areas of a space. -/
theorem MemorySet.map_yields {base : Mapping}
    (htable : ∃ nodes, TableInv ms.pageTable s.bytes base nodes)
    (howns : s.allocator.Owns L.low L.high (ms.frames ++ rest)) (hfresh : area.Fresh) :
    Yields (area.map ms.pageTable s)
      ((∃ vpn, area.Covers vpn ∧ base vpn ≠ none) ∨
        L.high < L.low + (ms.frames.length + rest.length) + 3 * (area.endVpn - area.startVpn))
      fun r => (∀ vpn, area.Covers vpn → base vpn = none) ∧
        r.1.keys = range' area.startVpn (area.endVpn - area.startVpn) ∧
        Extended L.low L.high (ms.dataFrames ++ rest) base (area.endVpn - area.startVpn) area
          ms.pageTable s r.1 r.2.1 r.2.2 ∧
        r.2.2.allocator.Owns L.low L.high
          (MemorySet.frames ⟨r.2.1, ms.areas ++ [r.1]⟩ ++ rest) ∧
        (MemorySet.frames ⟨r.2.1, ms.areas ++ [r.1]⟩).length ≤
          ms.frames.length + 3 * (area.endVpn - area.startVpn) := by
  have hnoFrames : area.frames = [] := by simp [MapArea.frames, hfresh.empty]
  rw [MemorySet.frames, append_assoc] at howns
  refine mono (MapArea.map_yields htable howns hfresh) ?_ ?_
  · rintro (hmapped | hfull)
    · exact .inl hmapped
    · refine .inr ?_
      simp only [length_append] at hfull
      simp only [MemorySet.frames, length_append]
      omega
  · rintro ⟨area', t', s'⟩ - ⟨hfree, hkeys, hext, -⟩
    simp only at hkeys hext
    have hdata : MemorySet.dataFrames ⟨t', ms.areas ++ [area']⟩ =
        ms.dataFrames ++ area'.frames := by
      simp [MemorySet.dataFrames]
    refine ⟨hfree, hkeys, hext, hext.laid.owns.congr fun p => ?_, ?_⟩
    · simp only [MemorySet.frames, hdata, count_append]
      omega
    · have hlength := hext.length
      simp only [hnoFrames, length_nil] at hlength
      simp only [MemorySet.frames, hdata, length_append]
      omega

theorem SpaceInv.map_yields (h : SpaceInv L ms s rest) (hfresh : area.Fresh) :
    Yields (area.map ms.pageTable s) (Refused L ms rest area) fun r =>
      Pushed L ms s rest area r.1 ⟨r.2.1, ms.areas ++ [r.1]⟩ r.2.2 := by
  refine mono (MemorySet.map_yields h.table h.owns hfresh) id ?_
  rintro ⟨area', t', s'⟩ - ⟨hfree, hkeys, hext, howns, hlength⟩
  simp only at hkeys hext
  have htrampoline : mappingOf L ms.areas trampolineVpn ≠ none :=
    fun hnone => (h.mappingOf_eq_none.mp hnone).1 rfl
  have hplaced := hfresh.placed h.placed htrampoline hfree hext.same hkeys
  refine ⟨⟨?_, howns, hplaced.complete, hplaced.apart⟩, rfl, hext.same, hfree, hext.root, hext.sub,
    hlength, hext.bytes⟩
  rw [mappingOf_eq, mappingOver_concat]
  exact hext.laid.table

theorem MapArea.new_eq_some {mapType : MapType}
    (h : MapArea.new startVa endVa mapType perm = some area) (hend : endVa < 2 ^ 39) :
    area = ⟨startVa / 4096, (endVa + 4095) / 4096, [], mapType, perm⟩ ∧
      startVa / 4096 ≤ (endVa + 4095) / 4096 := by
  rw [MapArea.new, floor, ceil, pageFloor_eq, pageCeil_eq (by omega)] at h
  simp only [ite_none_right_eq_some, Option.some.injEq] at h
  exact ⟨h.2.symm, h.1⟩

theorem MapArea.fresh_of_new (h : MapArea.new startVa endVa .framed perm = some area)
    (hstart : startVa < 2 ^ 39) (hend : endVa < 2 ^ 39) : area.Fresh := by
  obtain ⟨rfl, hle⟩ := new_eq_some h hend
  exact ⟨rfl, rfl, hle, by simp only; omega, by simp only; omega⟩

theorem SpaceInv.push_yields (h : SpaceInv L ms s rest) (hfresh : area.Fresh) :
    Yields (ms.push s area none) (Refused L ms rest area) fun r =>
      ∃ area', Pushed L ms s rest area area' r.1 r.2 := by
  refine (h.map_yields hfresh).bind ?_
  rintro ⟨area', t', s'⟩ - hpushed
  exact ⟨area', hpushed⟩

/-! ## Removing an area -/

/-- An area has been taken out of the space, and its frames given back. -/
structure Removed (L : Layout) (ms : MemorySet) (s : PhysMem) (rest : List Nat) (area : MapArea)
    (ms' : MemorySet) (s' : PhysMem) : Prop where
  inv : SpaceInv L ms' s' rest
  pageTable : ms'.pageTable = ms.pageTable
  areas : ∃ before after, ms.areas = before ++ area :: after ∧ ms'.areas = before ++ after
  allocator : s'.allocator =
    { s.allocator with recycled := area.frames.reverse ++ s.allocator.recycled }
  table : ∀ nodes, TableInv ms.pageTable s.bytes (mappingOf L ms.areas) nodes →
    TableInv ms.pageTable s'.bytes (mappingOf L ms'.areas) nodes
  bytes : SameOutside ms.pageTable.frames s.bytes s'.bytes

theorem Placed.unmap_eq {low high : Nat} {base : Mapping} {t : PageTable}
    {before after : List MapArea} (h : Placed base (before ++ area :: after))
    (htable : ∃ nodes, TableInv t s.bytes (mappingOver base (before ++ area :: after)) nodes)
    (howns : s.allocator.Owns low high
      (t.frames ++ (before ++ area :: after).flatMap MapArea.frames ++ rest)) :
    ∃ s', area.unmap t s = some ({ area with dataFrames := [] }, s') ∧
      (∃ nodes, TableInv t s'.bytes (mappingOver base (before ++ after)) nodes) ∧
      Cleared low high ((before ++ after).flatMap MapArea.frames ++ rest)
        (mappingOver base (before ++ after)) area t s s' := by
  have harea := h.complete area (by simp)
  have hle := harea.le
  have hbelow := harea.below
  rw [trampolineVpn] at hbelow
  have hlaid : Laid low high ((before ++ after).flatMap MapArea.frames ++ rest)
      (mappingOver base (before ++ after)) area t s := by
    refine ⟨h.mapping_eq ▸ htable, howns.congr fun p => ?_⟩
    simp only [flatMap_append, flatMap_cons, count_append]
    omega
  obtain ⟨s', hunmap, hcleared⟩ := unmapLoop_eq hlaid harea.framed (by omega)
    (fun vpn hlow hhigh => h.free_of_remove ⟨hlow, by omega⟩) harea.keys_eq
  obtain ⟨nodes, htable⟩ := hlaid.table
  exact ⟨s', hunmap, ⟨nodes, hcleared.table nodes htable⟩, hcleared⟩

theorem MemorySet.remove_of_unmap {before after : List MapArea}
    (hareas : ms.areas = before ++ area :: after)
    (hbefore : ∀ other ∈ before, other.startVpn ≠ area.startVpn)
    (hunmap : area.unmap ms.pageTable s = some ({ area with dataFrames := [] }, s')) :
    ms.removeAreaWithStartVpn s area.startVpn = some (⟨ms.pageTable, before ++ after⟩, s') := by
  have hidx : ms.areas.findIdx? (·.startVpn = area.startVpn) = some before.length := by
    have hnone : before.findIdx? (·.startVpn = area.startVpn) = none :=
      findIdx?_eq_none_iff.mpr fun other hmem => by simpa using hbefore other hmem
    rw [hareas, findIdx?_append, hnone, findIdx?_cons]
    simp
  have hget : ms.areas[before.length]? = some area := by simp [hareas]
  have herase : ms.areas.eraseIdx before.length = before ++ after := by
    rw [hareas, eraseIdx_append_of_length_le (Nat.le_refl _)]
    simp
  rw [MemorySet.removeAreaWithStartVpn, hidx]
  simp only [hget, hunmap, herase, do_some]
  rfl

theorem SpaceInv.remove_eq (h : SpaceInv L ms s rest)
    (hfind : ms.areas.find? (·.startVpn = startVpn) = some area) :
    ∃ ms' s', ms.removeAreaWithStartVpn s startVpn = some (ms', s') ∧
      Removed L ms s rest area ms' s' := by
  obtain ⟨hstart, before, after, hareas, hbefore⟩ := find?_eq_some_iff_append.mp hfind
  obtain rfl : area.startVpn = startVpn := by simpa using hstart
  have hplaced : Placed L.trampolineEntry (before ++ area :: after) := hareas ▸ h.placed
  have htable := h.table
  have howns := h.owns
  rw [hareas] at htable
  rw [MemorySet.frames, MemorySet.dataFrames, hareas] at howns
  obtain ⟨s', hunmap, htable', hcleared⟩ := hplaced.unmap_eq htable howns
  refine ⟨⟨ms.pageTable, before ++ after⟩, s',
    MemorySet.remove_of_unmap hareas (fun a ha => by simpa using hbefore a ha) hunmap,
    ⟨htable', ?_, hplaced.remove.complete, hplaced.remove.apart⟩, rfl,
    ⟨before, after, hareas, rfl⟩, hcleared.allocator, ?_, hcleared.bytes⟩
  · rw [MemorySet.frames, append_assoc]
    exact hcleared.owns
  · rw [hareas, mappingOf_eq, hplaced.mapping_eq]
    exact hcleared.table

/-! ## A new space -/

theorem toVirtPageNum_trampoline :
    toVirtPageNum (ofUsize trampoline) = some trampolineVpn := by
  decide

theorem Layout.toPhysPageNum_strampoline (L : Layout) :
    PhysAddr.toPhysPageNum (PhysAddr.ofUsize L.strampoline) = some L.trampolinePpn := by
  have hlt : L.strampoline < 2 ^ 56 := by
    have := L.below
    have := L.low_le
    have := L.high_le
    omega
  rw [PhysAddr.ofUsize_eq, Nat.mod_eq_of_lt hlt, PhysAddr.toPhysPageNum, pageOffset_eq,
    if_pos L.aligned]
  rfl

/-- A space with only the trampoline. -/
def MemorySet.newWithTrampoline (L : Layout) (s : PhysMem) : Option (MemorySet × PhysMem) := do
  let (ms, s) ← MemorySet.newBare s
  ms.mapTrampoline s L.strampoline

theorem MemorySet.newWithTrampoline_yields (howns : s.allocator.Owns L.low L.high rest) :
    Yields (MemorySet.newWithTrampoline L s) (L.high < L.low + rest.length + 3) fun r =>
      SpaceInv L r.1 r.2 rest ∧ r.1.areas = [] ∧ r.1.frames.length ≤ 3 ∧
        SameOutside r.1.frames s.bytes r.2.bytes := by
  simp only [newWithTrampoline, newBare, mapTrampoline, toVirtPageNum_trampoline,
    L.toPhysPageNum_strampoline, bind_eq_bind, bind_some, bind_assoc]
  refine bind (mono (PageTable.new_yields howns) (by omega)
    fun _ _ hpost => hpost) ?_
  rintro ⟨t, s₁⟩ - ⟨⟨nodes, htable⟩, howns₁, hone, hbytes⟩
  refine bind (mono
    (htable.map_yields howns₁ (by decide) L.trampolinePpn_lt_two_pow _) ?_ fun _ _ hpost => hpost) ?_
  · rintro (hmapped | hfull)
    · exact absurd rfl hmapped
    · have hfull : L.high < L.low + (t.frames.length + rest.length) + 2 := hfull
      have hone : t.frames.length = 1 := hone
      omega
  · rintro ⟨t', s'⟩ - ⟨-, ⟨nodes', htable'⟩, hgrown⟩
    have hmapping : Function.update (fun _ => none) trampolineVpn
        (some (L.trampolinePpn, PTEFlags.R ||| PTEFlags.X)) = mappingOf L [] := by
      funext vpn
      simp [mappingOf, Layout.trampolineEntry, Function.update_apply]
    rw [hmapping] at htable'
    refine ⟨⟨⟨nodes', htable'⟩, ?_, by simp, Pairwise.nil⟩, rfl, ?_, ?_⟩
    · simpa [MemorySet.frames, MemorySet.dataFrames] using hgrown.owns
    · have hlength := hgrown.length
      simp only at hlength hone
      simp only [MemorySet.frames, MemorySet.dataFrames, flatMap_nil, append_nil]
      omega
    · simpa [MemorySet.frames, MemorySet.dataFrames] using hbytes.trans hgrown.bytes hgrown.sub

/-! ## Runs -/

/-- A space made with the trampoline, after any number of insertions of areas whose
pages are free and of removals, none of which ran out of frames.  Between the calls other
code may allocate and free frames of its own and write anywhere but to the page
table. -/
inductive MemorySet.Reaches (L : Layout) : MemorySet → PhysMem → Prop where
  | new {s s' : PhysMem} {rest : List Nat} {ms : MemorySet}
      (howns : s.allocator.Owns L.low L.high rest)
      (hnew : MemorySet.newWithTrampoline L s = some (ms, s')) : Reaches L ms s'
  | insert {ms ms' : MemorySet} {s s' : PhysMem} {startVa endVa : Nat} {perm : MapPermission}
      (h : Reaches L ms s) (hstart : startVa < 2 ^ 39) (hend : endVa < 2 ^ 39)
      (hne : VirtAddr.floor startVa < VirtAddr.ceil endVa)
      (hfree : ∀ vpn, VirtAddr.floor startVa ≤ vpn → vpn < VirtAddr.ceil endVa →
        vpn ≠ trampolineVpn ∧ ∀ area ∈ ms.areas, ¬area.Covers vpn)
      (hinsert : ms.insertFramedArea s startVa endVa perm = some (ms', s')) : Reaches L ms' s'
  | remove {ms ms' : MemorySet} {s s' : PhysMem} {startVpn : Nat} (h : Reaches L ms s)
      (hremove : ms.removeAreaWithStartVpn s startVpn = some (ms', s')) : Reaches L ms' s'
  | other {ms : MemorySet} {s s' : PhysMem} {rest : List Nat} (h : Reaches L ms s)
      (hsame : ∀ x, x / 4096 ∈ ms.pageTable.frames → s'.bytes x = s.bytes x)
      (howns : s'.allocator.Owns L.low L.high (ms.frames ++ rest)) : Reaches L ms s'

theorem SpaceInv.other (h : SpaceInv L ms s rest) {rest' : List Nat}
    (hsame : ∀ x, x / 4096 ∈ ms.pageTable.frames → s'.bytes x = s.bytes x)
    (howns : s'.allocator.Owns L.low L.high (ms.frames ++ rest')) : SpaceInv L ms s' rest' := by
  obtain ⟨nodes, htable⟩ := h.table
  exact ⟨⟨nodes, htable.congr hsame⟩, howns, h.complete, h.apart⟩

theorem MemorySet.remove_of_find_eq_none (hfind : ms.areas.find? (·.startVpn = startVpn) = none) :
    ms.removeAreaWithStartVpn s startVpn = some (ms, s) := by
  have hidx : ms.areas.findIdx? (·.startVpn = startVpn) = none := by
    rw [findIdx?_eq_none_iff]
    intro area hmem
    simpa using find?_eq_none.mp hfind area hmem
  rw [MemorySet.removeAreaWithStartVpn, hidx]

theorem SpaceInv.remove_spec (h : SpaceInv L ms s rest)
    (hremove : ms.removeAreaWithStartVpn s startVpn = some (ms', s')) :
    (ms' = ms ∧ s' = s) ∨ ∃ area, ms.areas.find? (·.startVpn = startVpn) = some area ∧
      Removed L ms s rest area ms' s' := by
  cases hfind : ms.areas.find? (·.startVpn = startVpn) with
  | none =>
    rw [MemorySet.remove_of_find_eq_none hfind] at hremove
    cases hremove
    exact .inl ⟨rfl, rfl⟩
  | some area =>
    obtain ⟨ms₁, s₁, hremove', hremoved⟩ := h.remove_eq hfind
    cases hremove.symm.trans hremove'
    exact .inr ⟨area, rfl, hremoved⟩

theorem SpaceInv.insert_yields (h : SpaceInv L ms s rest)
    (hnew : MapArea.new startVa endVa .framed perm = some area) (hstart : startVa < 2 ^ 39)
    (hend : endVa < 2 ^ 39) :
    Yields (ms.insertFramedArea s startVa endVa perm) (Refused L ms rest area)
      fun r => ∃ area', Pushed L ms s rest area area' r.1 r.2 := by
  rw [MemorySet.insertFramedArea, hnew]
  exact h.push_yields (fresh_of_new hnew hstart hend)

theorem SpaceInv.insert_spec (h : SpaceInv L ms s rest) (hstart : startVa < 2 ^ 39)
    (hend : endVa < 2 ^ 39) (hinsert : ms.insertFramedArea s startVa endVa perm = some (ms', s')) :
    ∃ area area', MapArea.new startVa endVa .framed perm = some area ∧
      Pushed L ms s rest area area' ms' s' := by
  cases hnew : MapArea.new startVa endVa .framed perm with
  | none => simp [MemorySet.insertFramedArea, hnew] at hinsert
  | some area =>
    obtain ⟨area', hpushed⟩ := (h.insert_yields hnew hstart hend).of_eq_some hinsert
    exact ⟨area, area', rfl, hpushed⟩

theorem MemorySet.Reaches.inv (h : Reaches L ms s) : ∃ rest, SpaceInv L ms s rest := by
  induction h with
  | new howns hnew => exact ⟨_, ((newWithTrampoline_yields howns).of_eq_some hnew).1⟩
  | insert _ hstart hend _ _ hinsert ih =>
    obtain ⟨rest, hinv⟩ := ih
    obtain ⟨_, _, -, hpushed⟩ := hinv.insert_spec hstart hend hinsert
    exact ⟨rest, hpushed.inv⟩
  | remove _ hremove ih =>
    obtain ⟨rest, hinv⟩ := ih
    rcases hinv.remove_spec hremove with ⟨rfl, rfl⟩ | ⟨area, -, hremoved⟩
    · exact ⟨rest, hinv⟩
    · exact ⟨rest, hremoved.inv⟩
  | other _ hsame howns ih =>
    obtain ⟨rest, hinv⟩ := ih
    exact ⟨_, hinv.other hsame howns⟩

/-! ## What holds in every state -/

namespace SpaceInv

theorem isValid_iff (h : SpaceInv L ms s rest) (hvpn : vpn < 2 ^ 27) :
    (∃ pte, ms.translate s.bytes vpn = some pte ∧ pte.isValid = true) ↔
      vpn = trampolineVpn ∨ ∃ area ∈ ms.areas, area.Covers vpn := by
  obtain ⟨nodes, htable⟩ := h.table
  have hmapped : (∃ pte, ms.pageTable.translate s.bytes vpn = some pte ∧ pte.isValid = true) ↔
      mappingOf L ms.areas vpn ≠ none := by
    rw [htable.isValid_iff, Nat.mod_eq_of_lt hvpn]
  rw [MemorySet.translate, hmapped, Ne, h.mappingOf_eq_none]
  constructor
  · intro hnot
    by_contra hno
    simp only [not_or, not_exists, not_and] at hno
    exact hnot hno
  · rintro (rfl | ⟨area, hmem, hcovers⟩) ⟨hne, hnot⟩
    · exact hne rfl
    · exact hnot area hmem hcovers

theorem translate_of_covers (h : SpaceInv L ms s rest) (hmem : area ∈ ms.areas)
    (hcovers : area.Covers vpn) :
    ∃ ppn, area.dataFrames.lookup vpn = some ppn ∧ ppn ∈ area.frames ∧ ppn < 2 ^ 44 ∧
      ms.translate s.bytes vpn =
        some (PageTableEntry.new ppn (area.mapPerm ||| PTEFlags.V)) := by
  obtain ⟨nodes, htable⟩ := h.table
  have hcomplete := h.complete area hmem
  have hvpn : vpn < 2 ^ 27 := by
    have hlt := hcomplete.lt_trampolineVpn hcovers
    rw [trampolineVpn] at hlt
    omega
  cases hlookup : area.dataFrames.lookup vpn with
  | none =>
    have hnone : area.entry vpn = none := by rw [MapArea.entry, hlookup]; rfl
    exact absurd hcovers (hcomplete.entry_eq_none.mp hnone)
  | some ppn =>
    have hentry : area.entry vpn = some (ppn, area.mapPerm) := by
      rw [MapArea.entry, hlookup]
      rfl
    have hmapping : mappingOf L ms.areas (vpn % 2 ^ 27) = some (ppn, area.mapPerm) := by
      rw [Nat.mod_eq_of_lt hvpn, mappingOf_of_covers h.complete h.apart hmem hcovers, hentry]
    have htranslate := htable.translate_of_mapped hmapping
    exact ⟨ppn, rfl, mem_frames_of_entry hentry, htable.ppn_lt hmapping, htranslate⟩

theorem translate_of_removed (h : SpaceInv L ms s rest) (hremoved : Removed L ms s rest area ms' s')
    (hvpn : vpn < 2 ^ 27) (hnot : ¬area.Covers vpn) :
    ms'.translate s'.bytes vpn = ms.translate s.bytes vpn := by
  obtain ⟨nodes, htable⟩ := h.table
  have htable' := hremoved.table nodes htable
  obtain ⟨before, after, hareas, hareas'⟩ := hremoved.areas
  have hsame : mappingOf L ms'.areas vpn = mappingOf L ms.areas vpn := by
    have hplaced : Placed L.trampolineEntry (before ++ area :: after) := hareas ▸ h.placed
    have hnone := (hplaced.complete area (by simp)).entry_eq_none.mpr hnot
    have hmapping := congrFun hplaced.mapping_eq vpn
    rw [overlay, hnone, or_none] at hmapping
    rw [hareas, hareas']
    exact hmapping.symm
  rw [MemorySet.translate, MemorySet.translate, hremoved.pageTable, htable'.translate_eq,
    htable.translate_eq, Nat.mod_eq_of_lt hvpn, hsame]

theorem insert_of_available (h : SpaceInv L ms s rest)
    (hnew : MapArea.new startVa endVa .framed perm = some area) (hstart : startVa < 2 ^ 39)
    (hend : endVa < 2 ^ 39)
    (hfree : ∀ vpn, area.Covers vpn → vpn ≠ trampolineVpn ∧ ∀ other ∈ ms.areas, ¬other.Covers vpn)
    (henough : 3 * (area.endVpn - area.startVpn) ≤ s.allocator.available) :
    ∃ ms' s', ms.insertFramedArea s startVa endVa perm = some (ms', s') := by
  have havailable := h.owns.add_available
  rw [length_append] at havailable
  obtain ⟨⟨ms', s'⟩, hinsert, -⟩ := (h.insert_yields hnew hstart hend).exists <| by
    rintro (⟨vpn, hcovers, hmapped⟩ | hfull)
    · exact hmapped (h.mappingOf_eq_none.mpr (hfree vpn hcovers))
    · omega
  exact ⟨ms', s', hinsert⟩

end SpaceInv

/-- **An address space maps exactly its areas.**  In every state of a run: an entry is
valid exactly if its page is the trampoline or in an area; the entry of a page of an
area has the permissions of the area and the frame that the area keeps for the page, and
it keeps frames for exactly the pages of its range; the frames of the page table and of
the areas are all different; removing an area gives back exactly its frames and leaves
the entries of all other pages as they were; and inserting an area of free pages
succeeds while there are three frames for each page. -/
theorem memory_set_maps_areas (h : MemorySet.Reaches L ms s) :
    (∀ vpn < 2 ^ 27, (∃ pte, ms.translate s.bytes vpn = some pte ∧ pte.isValid = true) ↔
      vpn = trampolineVpn ∨ ∃ area ∈ ms.areas, area.Covers vpn) ∧
    (∀ area ∈ ms.areas, (∀ vpn, vpn ∈ area.dataFrames.map (·.1) ↔ area.Covers vpn) ∧
      ∀ vpn, area.Covers vpn → ∃ pte, ms.translate s.bytes vpn = some pte ∧
        pte.isValid = true ∧ area.dataFrames.lookup vpn = some pte.ppn ∧
        pte.flags = area.mapPerm ||| PTEFlags.V) ∧
    (ms.pageTable.frames ++ ms.areas.flatMap (·.dataFrames.map (·.2))).Nodup ∧
    (∀ startVpn area, ms.areas.find? (·.startVpn = startVpn) = some area →
      ∃ ms' s', ms.removeAreaWithStartVpn s startVpn = some (ms', s') ∧
        s'.allocator = { s.allocator with
          recycled := (area.dataFrames.map (·.2)).reverse ++ s.allocator.recycled } ∧
        ∀ vpn < 2 ^ 27, ¬area.Covers vpn →
          ms'.translate s'.bytes vpn = ms.translate s.bytes vpn) ∧
    (∀ startVa endVa perm, startVa < 2 ^ 39 → endVa < 2 ^ 39 →
      VirtAddr.floor startVa < VirtAddr.ceil endVa →
      (∀ vpn, VirtAddr.floor startVa ≤ vpn → vpn < VirtAddr.ceil endVa →
        vpn ≠ trampolineVpn ∧ ∀ area ∈ ms.areas, ¬area.Covers vpn) →
      3 * (VirtAddr.ceil endVa - VirtAddr.floor startVa) ≤ s.allocator.available →
      ∃ ms' s', ms.insertFramedArea s startVa endVa perm = some (ms', s')) := by
  obtain ⟨rest, hinv⟩ := h.inv
  refine ⟨fun vpn hvpn => hinv.isValid_iff hvpn, fun area hmem => ⟨fun vpn => ?_, ?_⟩, ?_, ?_, ?_⟩
  · exact (hinv.complete area hmem).mem_keys
  · intro vpn hcovers
    obtain ⟨ppn, hlookup, -, hppn, htranslate⟩ := hinv.translate_of_covers hmem hcovers
    refine ⟨_, htranslate, PageTableEntry.isValid_new hppn _, ?_, PageTableEntry.flags_new hppn _⟩
    rw [PageTableEntry.ppn_new hppn, hlookup]
  · exact (List.nodup_append.mp hinv.owns.nodup).1
  · intro startVpn area hfind
    obtain ⟨ms', s', hremove, hremoved⟩ := hinv.remove_eq hfind
    exact ⟨ms', s', hremove, hremoved.allocator,
      fun vpn hvpn hnot => hinv.translate_of_removed hremoved hvpn hnot⟩
  · intro startVa endVa perm hstart hend hne hfree henough
    obtain ⟨area, hnew, harea⟩ : ∃ area, MapArea.new startVa endVa .framed perm = some area ∧
        area.startVpn = floor startVa ∧ area.endVpn = ceil endVa := by
      refine ⟨⟨floor startVa, ceil endVa, [], .framed, perm⟩, ?_, rfl, rfl⟩
      rw [MapArea.new]
      exact if_pos (Nat.le_of_lt hne)
    refine hinv.insert_of_available hnew hstart hend (fun vpn hcovers => ?_) ?_
    · exact hfree vpn (harea.1 ▸ hcovers.1) (harea.2 ▸ hcovers.2)
    · rwa [harea.1, harea.2]

/-- A layout with a hundred frames. -/
def smallLayout : Layout where
  strampoline := 4096 * 5
  low := 100
  high := 200
  aligned := by decide
  below := by decide
  low_le := by decide
  high_le := by decide

theorem owns_smallLayout :
    StackFrameAllocator.Owns smallLayout.low smallLayout.high ⟨100, 200, []⟩ [] where
  end_eq := rfl
  low_le := Nat.le_refl _
  current_le := by decide
  high_le := by decide
  count p := by
    rw [if_neg]
    · rfl
    · rintro ⟨hlow, hhigh⟩
      exact Nat.lt_irrefl _ (Nat.lt_of_le_of_lt hlow hhigh)

/-- A space with one area of two pages. -/
theorem memory_set_maps_areas_two_pages :
    ∃ ms s, MemorySet.Reaches smallLayout ms s ∧ ms.areas.length = 1 ∧
      (∃ pte, ms.translate s.bytes 3 = some pte ∧ pte.isValid = true) ∧
      ¬∃ pte, ms.translate s.bytes 4 = some pte ∧ pte.isValid = true := by
  have hfacts : ((MemorySet.newWithTrampoline smallLayout ⟨fun _ => 7, ⟨100, 200, []⟩⟩).bind fun r =>
      (r.1.insertFramedArea r.2 0x2000 0x4000 (MapPermission.R ||| MapPermission.U)).map fun r' =>
        (r.1.areas.length, r'.1.areas.map fun area => (area.startVpn, area.endVpn))) =
      some (0, [(2, 4)]) := by decide +kernel
  obtain ⟨⟨ms, s⟩, hnew, hfacts⟩ := Option.bind_eq_some_iff.mp hfacts
  obtain ⟨⟨ms', s'⟩, hinsert, hfacts⟩ := Option.map_eq_some_iff.mp hfacts
  simp only [Prod.mk.injEq, List.length_eq_zero_iff, List.map_eq_singleton_iff] at hfacts
  obtain ⟨hnil, area, hone, hstart, hend⟩ := hfacts
  have hfree : ∀ vpn, floor 0x2000 ≤ vpn → vpn < ceil 0x4000 →
      vpn ≠ trampolineVpn ∧ ∀ area ∈ ms.areas, ¬area.Covers vpn := by
    intro vpn _ hhigh
    refine ⟨fun heq => ?_, by simp [hnil]⟩
    rw [heq] at hhigh
    exact absurd hhigh (by decide)
  have h := (MemorySet.Reaches.new owns_smallLayout hnew).insert (by decide) (by decide) (by decide)
    hfree hinsert
  have hvalid := (memory_set_maps_areas h).1
  refine ⟨ms', s', h, by rw [hone]; rfl, ?_, ?_⟩
  · refine (hvalid 3 (by decide)).mpr (.inr ⟨area, by simp [hone], ?_⟩)
    rw [MapArea.Covers, hstart, hend]
    decide
  · rw [hvalid 4 (by decide), hone]
    rintro (heq | ⟨other, hmem, hcovers⟩)
    · exact absurd heq (by decide)
    · rw [List.mem_singleton.mp hmem, MapArea.Covers, hend] at hcovers
      exact Nat.lt_irrefl _ hcovers.2

end RCore.Mm
