import RCore.Mm.Spaces

/-!
# The space of the kernel

`new_kernel` maps the sections of the kernel, the physical memory and the device
registers to themselves; after that framed areas come and go, as in the space of a
program.  The areas that are mapped to themselves own no frames and are never removed.
-/

namespace RCore.Mm

open RCore.Lib.Outcome Memory Function List Option MapArea Yields
open VirtAddr (ofUsize ofUsize_lt ofUsize_eq)

/-! ## The model -/

/-- The addresses that the linker script gives: every section ends within the memory, and
the image leaves some of it free. -/
structure KernelImage extends Layout where
  stext : Nat
  etext : Nat
  srodata : Nat
  erodata : Nat
  sdata : Nat
  edata : Nat
  sbssWithStack : Nat
  ebss : Nat
  ekernel : Nat
  etext_le : etext ≤ memoryEnd
  erodata_le : erodata ≤ memoryEnd
  edata_le : edata ≤ memoryEnd
  ebss_le : ebss ≤ memoryEnd
  ekernel_lt : ekernel < memoryEnd

/-- `MMIO`: start and size of each range of registers. -/
def mmio : List (Nat × Nat) := [(0x10001000, 0x1000)]

/-- The ranges that `new_kernel` maps, in order, with their permissions. -/
def KernelImage.sections (image : KernelImage) : List (Nat × Nat × MapPermission) :=
  [(image.stext, image.etext, MapPermission.R ||| MapPermission.X),
    (image.srodata, image.erodata, MapPermission.R),
    (image.sdata, image.edata, MapPermission.R ||| MapPermission.W),
    (image.sbssWithStack, image.ebss, MapPermission.R ||| MapPermission.W),
    -- the physical memory behind the image
    (image.ekernel, memoryEnd, MapPermission.R ||| MapPermission.W)] ++
  mmio.map fun pair => (pair.1, usizeAdd pair.1 pair.2, MapPermission.R ||| MapPermission.W)

namespace MemorySet

/-- Push an identical area for each of the ranges. -/
def pushSections (self : MemorySet) (s : PhysMem) :
    List (Nat × Nat × MapPermission) → Option (MemorySet × PhysMem)
  | [] => some (self, s)
  | (start, stop, perm) :: rest => do
      let area ← MapArea.new (VirtAddr.ofUsize start) (VirtAddr.ofUsize stop) .identical perm
      let (self, s) ← self.push s area none
      self.pushSections s rest

def newKernel (image : KernelImage) (s : PhysMem) : Option (MemorySet × PhysMem) := do
  let (self, s) ← newWithTrampoline image.toLayout s
  self.pushSections s image.sections

end MemorySet

/-! ## Identical areas -/

namespace MapArea

/-- A range of pages below the trampoline that is mapped to itself. -/
structure Identical (area : MapArea) : Prop where
  identical : area.mapType = .identical
  empty : area.dataFrames = []
  le : area.startVpn ≤ area.endVpn
  end_le : area.endVpn ≤ 2 ^ 27

instance (area : MapArea) (vpn : Nat) : Decidable (area.Covers vpn) :=
  inferInstanceAs (Decidable (_ ∧ _))

/-- What such an area maps a page to. -/
def identityEntry (area : MapArea) (vpn : Nat) : Option (Nat × PTEFlags) :=
  if area.Covers vpn then some (vpn, area.mapPerm) else none

theorem identityEntry_eq_none {area : MapArea} {vpn : Nat} :
    area.identityEntry vpn = none ↔ ¬area.Covers vpn := by
  rw [identityEntry]
  split <;> simp [*]

end MapArea

/-- The pages from `vpn` on, `n` of them, are mapped to themselves. -/
def identityOver (mapping : Mapping) (perm : MapPermission) (vpn n : Nat) : Mapping :=
  fun v => if vpn ≤ v ∧ v < vpn + n then some (v, perm) else mapping v

section Identity

variable {low high : Nat} {rest : List Nat} {t : PageTable} {s : PhysMem} {mapping : Mapping}
  {area : MapArea}

theorem identityOver_zero (perm : MapPermission) (vpn : Nat) :
    identityOver mapping perm vpn 0 = mapping := by
  funext v
  rw [identityOver, if_neg (by omega)]

theorem identityOver_succ (perm : MapPermission) (vpn n : Nat) :
    identityOver (update mapping vpn (some (vpn, perm))) perm (vpn + 1) n =
      identityOver mapping perm vpn (n + 1) := by
  funext v
  simp only [identityOver, update_apply]
  by_cases hv : v = vpn
  · rw [if_neg (by omega), if_pos hv, if_pos (by omega), hv]
  · rw [if_neg hv]
    congr 1
    exact propext ⟨fun h => by omega, fun h => by omega⟩

/-- `map` of an area that is mapped to itself only takes frames for the table. -/
theorem MapArea.mapLoop_identical (hident : area.mapType = .identical)
    (htable : ∃ nodes, TableInv t s.bytes mapping nodes)
    (howns : s.allocator.Owns low high (t.frames ++ rest)) {vpn n : Nat} (hvpn : vpn + n ≤ 2 ^ 27) :
    Yields (area.mapLoop t s vpn n)
      ((∃ v, vpn ≤ v ∧ v < vpn + n ∧ mapping v ≠ none) ∨
        high < low + (t.frames.length + rest.length) + 2 * n)
      fun r => r.1 = area ∧ (∀ v, vpn ≤ v → v < vpn + n → mapping v = none) ∧
        (∃ nodes, TableInv r.2.1 r.2.2.bytes (identityOver mapping area.mapPerm vpn n) nodes) ∧
        Grown low high rest (2 * n) t s r.2.1 r.2.2 := by
  induction n generalizing t s vpn mapping with
  | zero =>
    refine ⟨rfl, fun v hlow hhigh => by omega, ?_, .refl howns _⟩
    rw [identityOver_zero]
    exact htable
  | succ n ih =>
    obtain ⟨nodes, htable⟩ := htable
    have hmap : Yields (t.map s vpn vpn area.mapPerm) _ _ :=
      htable.map_yields howns (by omega) (by omega) area.mapPerm
    have hone : Yields (area.mapOne t s vpn)
        ((∃ v, vpn ≤ v ∧ v < vpn + (n + 1) ∧ mapping v ≠ none) ∨
          high < low + (t.frames.length + rest.length) + 2 * (n + 1))
        fun r => r.1 = area ∧ mapping vpn = none ∧ (∃ nodes, TableInv r.2.1 r.2.2.bytes
            (update mapping vpn (some (vpn, area.mapPerm))) nodes) ∧
          Grown low high rest 2 t s r.2.1 r.2.2 := by
      simp only [mapOne, hident]
      refine bind (hmap.mono ?_ fun _ _ hpost => hpost) ?_
      · rintro (hmapped | hfull)
        · exact .inl ⟨vpn, Nat.le_refl _, by omega, hmapped⟩
        · exact .inr (by omega)
      · rintro ⟨t₁, s₁⟩ - ⟨hfree, htable₁, hgrown⟩
        exact ⟨rfl, hfree, htable₁, hgrown⟩
    rw [mapLoop]
    refine hone.bind ?_
    rintro ⟨area₁, t₁, s₁⟩ - ⟨harea, hfree, htable₁, hgrown⟩
    obtain rfl : area₁ = area := harea
    have hlength := hgrown.length
    simp only at hlength htable₁ hgrown
    refine mono (ih htable₁ hgrown.owns (by omega)) ?_ ?_
    · rintro (⟨v, hlow, hhigh, hmapped⟩ | hfull)
      · rw [update_of_ne (by omega)] at hmapped
        exact .inl ⟨v, by omega, by omega, hmapped⟩
      · exact .inr (by omega)
    · rintro ⟨area₂, t₂, s₂⟩ - ⟨harea₂, hfree₂, htable₂, hgrown₂⟩
      refine ⟨harea₂, fun v hlow hhigh => ?_, ?_, ?_⟩
      · rcases Nat.eq_or_lt_of_le hlow with rfl | hlt
        · exact hfree
        · have hrest := hfree₂ v (by omega) (by omega)
          rwa [update_of_ne (by omega)] at hrest
      · rw [← identityOver_succ]
        exact htable₂
      · rw [Nat.mul_succ, Nat.add_comm]
        exact hgrown.trans hgrown₂

end Identity

/-! ## The invariant -/

/-- The trampoline and the areas that are mapped to themselves. -/
def fixedMapping (L : Layout) (fixed : List MapArea) : Mapping :=
  fun vpn => (L.trampolineEntry vpn).or (fixed.findSome? (·.identityEntry vpn))

/-- The space has the areas `fixed`, mapped to themselves, and then the framed areas `framed`,
which are complete, apart and not on pages of the others; the page table maps all of them. -/
structure KernelInv (L : Layout) (fixed framed : List MapArea) (ms : MemorySet) (s : PhysMem)
    (rest : List Nat) : Prop where
  table : ∃ nodes, TableInv ms.pageTable s.bytes (mappingOver (fixedMapping L fixed) framed) nodes
  owns : s.allocator.Owns L.low L.high (ms.frames ++ rest)
  areas : ms.areas = fixed ++ framed
  fixed_identical : ∀ area ∈ fixed, area.Identical
  complete : ∀ area ∈ framed, area.Complete
  apart : framed.Pairwise Apart
  free : ∀ area ∈ framed, ∀ vpn, area.Covers vpn → fixedMapping L fixed vpn = none

variable {L : Layout} {fixed framed : List MapArea} {area area' : MapArea} {ms ms' : MemorySet}
  {s s' : PhysMem} {rest : List Nat} {vpn : Nat}

theorem fixedMapping_eq_none : fixedMapping L fixed vpn = none ↔
    vpn ≠ trampolineVpn ∧ ∀ area ∈ fixed, ¬area.Covers vpn := by
  rw [fixedMapping, or_eq_none_iff, findSome?_eq_none_iff, trampolineEntry_eq_none]
  exact and_congr_right fun _ => forall₂_congr fun area _ => identityEntry_eq_none

theorem fixedMapping_trampoline : fixedMapping L fixed trampolineVpn ≠ none :=
  fun hnone => (fixedMapping_eq_none.mp hnone).1 rfl

theorem identityOver_fixedMapping (hle : area.startVpn ≤ area.endVpn)
    (hfree : ∀ vpn, area.Covers vpn → fixedMapping L fixed vpn = none) :
    identityOver (fixedMapping L fixed) area.mapPerm area.startVpn (area.endVpn - area.startVpn) =
      fixedMapping L (fixed ++ [area]) := by
  funext vpn
  have hsplit : fixedMapping L (fixed ++ [area]) vpn =
      (fixedMapping L fixed vpn).or (area.identityEntry vpn) := by
    simp [fixedMapping, findSome?_append, Option.or_assoc]
  rw [hsplit, identityOver, identityEntry]
  by_cases hcovers : area.Covers vpn
  · have hin := hcovers
    rw [Covers] at hin
    rw [if_pos (by omega), hfree vpn hcovers, if_pos hcovers]
    rfl
  · have hout := hcovers
    rw [Covers] at hout
    rw [if_neg (by omega), if_neg hcovers, or_none]

/-- The area that `new_kernel` pushes for a range. -/
def IsSection (range : Nat × Nat × MapPermission) (area : MapArea) : Prop :=
  MapArea.new (VirtAddr.ofUsize range.1) (VirtAddr.ofUsize range.2.1) .identical range.2.2 = some area

variable {range : Nat × Nat × MapPermission}

theorem IsSection.eq (h : IsSection range area) :
    area = ⟨range.1 % 2 ^ 39 / 4096, (range.2.1 % 2 ^ 39 + 4095) / 4096, [], .identical, range.2.2⟩ ∧
      range.1 % 2 ^ 39 / 4096 ≤ (range.2.1 % 2 ^ 39 + 4095) / 4096 := by
  rw [← ofUsize_eq, ← ofUsize_eq]
  exact new_eq_some h (ofUsize_lt _)

theorem IsSection.identical (h : IsSection range area) : area.Identical := by
  obtain ⟨rfl, hle⟩ := h.eq
  exact ⟨rfl, rfl, hle, by simp only; omega⟩

variable {sections : List (Nat × Nat × MapPermission)} {perm : MapPermission}

namespace KernelInv

theorem frames_fixed (hfixed : ∀ area ∈ fixed, area.Identical) :
    fixed.flatMap frames = [] :=
  flatMap_eq_nil_iff.mpr fun area hmem => by
    simp [frames, (hfixed area hmem).empty]

section

variable (h : KernelInv L fixed framed ms s rest)
include h

theorem dataFrames_eq : ms.dataFrames = framed.flatMap frames := by
  rw [MemorySet.dataFrames, h.areas, flatMap_append, frames_fixed h.fixed_identical, nil_append]

theorem placed : Placed (fixedMapping L fixed) framed :=
  ⟨h.complete, h.apart, h.free⟩

theorem isValid_iff (hvpn : vpn < 2 ^ 27) :
    (∃ pte, ms.translate s.bytes vpn = some pte ∧ pte.isValid = true) ↔
      ¬(fixedMapping L fixed vpn = none ∧ ∀ area ∈ framed, ¬area.Covers vpn) := by
  obtain ⟨nodes, htable⟩ := h.table
  rw [MemorySet.translate, htable.isValid_iff, Nat.mod_eq_of_lt hvpn, Ne, h.placed.eq_none]

theorem other {rest' : List Nat}
    (hsame : ∀ x, x / 4096 ∈ ms.pageTable.frames → s'.bytes x = s.bytes x)
    (howns : s'.allocator.Owns L.low L.high (ms.frames ++ rest')) :
    KernelInv L fixed framed ms s' rest' := by
  obtain ⟨nodes, htable⟩ := h.table
  exact ⟨⟨nodes, htable.congr hsame⟩, howns, h.areas, h.fixed_identical, h.complete, h.apart,
    h.free⟩

end

/-! ## Mapping sections -/

theorem push_identical (h : KernelInv L fixed [] ms s rest) (hident : area.Identical) :
    Yields (ms.push s area none)
      ((∃ vpn, area.Covers vpn ∧ fixedMapping L fixed vpn ≠ none) ∨
        L.high < L.low + (ms.frames.length + rest.length) + 2 * (area.endVpn - area.startVpn))
      fun r => KernelInv L (fixed ++ [area]) [] r.1 r.2 rest ∧
        r.1.frames.length ≤ ms.frames.length + 2 * (area.endVpn - area.startVpn) := by
  have hle := hident.le
  have hend := hident.end_le
  have hdata : ms.dataFrames = [] := by rw [h.dataFrames_eq]; rfl
  have hframes : ms.frames = ms.pageTable.frames := by
    rw [MemorySet.frames, hdata, append_nil]
  have htable : ∃ nodes, TableInv ms.pageTable s.bytes (fixedMapping L fixed) nodes := by
    rw [← mappingOver_nil (fixedMapping L fixed)]
    exact h.table
  have howns := h.owns
  rw [hframes] at howns
  have hmap : Yields (area.map ms.pageTable s) _ _ :=
    mapLoop_identical hident.identical htable howns
      (show area.startVpn + (area.endVpn - area.startVpn) ≤ 2 ^ 27 by omega)
  refine bind (hmap.mono ?_ fun _ _ hpost => hpost) ?_
  · rintro (⟨v, hlow, hhigh, hmapped⟩ | hfull)
    · exact .inl ⟨v, ⟨hlow, by omega⟩, hmapped⟩
    · rw [hframes]
      exact .inr hfull
  · rintro ⟨area₁, t₁, s₁⟩ - ⟨harea, hfree, htable₁, hgrown⟩
    obtain rfl : area₁ = area := harea
    have hcovered : ∀ vpn, area₁.Covers vpn → fixedMapping L fixed vpn = none :=
      fun vpn hcovers => hfree vpn hcovers.1 (by have := hcovers.2; omega)
    have hareas : ms.areas ++ [area₁] = fixed ++ [area₁] := by rw [h.areas, append_nil]
    have hfixed : ∀ other ∈ fixed ++ [area₁], other.Identical := by
      intro other hmem
      rcases mem_append.mp hmem with hmem | hmem
      · exact h.fixed_identical other hmem
      · rw [mem_singleton.mp hmem]
        exact hident
    have hframes₁ : MemorySet.frames ⟨t₁, ms.areas ++ [area₁]⟩ = t₁.frames := by
      simp only [MemorySet.frames, MemorySet.dataFrames, hareas]
      rw [frames_fixed hfixed, append_nil]
    refine ⟨⟨?_, ?_, by rw [hareas, append_nil], hfixed, by simp, Pairwise.nil, by simp⟩, ?_⟩
    · rw [mappingOver_nil, ← identityOver_fixedMapping hle hcovered]
      exact htable₁
    · rw [hframes₁]
      exact hgrown.owns
    · rw [hframes₁, hframes]
      exact hgrown.length

/-- Pushing one more range of `new_kernel`. -/
theorem pushSections_cons {start stop : Nat}
    (hnew : new (ofUsize start) (ofUsize stop) .identical perm = some area) :
    ms.pushSections s ((start, stop, perm) :: sections) =
      (ms.push s area none).bind fun r => r.1.pushSections r.2 sections := by
  rw [MemorySet.pushSections, hnew]
  rfl

/-- After a run of `new_kernel` over the ranges, the space has an area for each. -/
theorem pushSections_spec (h : KernelInv L fixed [] ms s rest)
    (hpush : ms.pushSections s sections = some (ms', s')) :
    ∃ areas, (∀ area ∈ areas, ∃ range ∈ sections, IsSection range area) ∧
      (∀ range ∈ sections, ∃ area ∈ areas, IsSection range area) ∧
      KernelInv L (fixed ++ areas) [] ms' s' rest := by
  induction sections generalizing fixed ms s with
  | nil =>
    obtain ⟨rfl, rfl⟩ : ms = ms' ∧ s = s' := by simpa [MemorySet.pushSections] using hpush
    exact ⟨[], by simp, by simp, by rwa [append_nil]⟩
  | cons range sections ih =>
    obtain ⟨start, stop, perm⟩ := range
    cases hnew : new (ofUsize start) (ofUsize stop) .identical perm with
    | none => simp [MemorySet.pushSections, hnew] at hpush
    | some area =>
      rw [pushSections_cons hnew, bind_eq_some_iff] at hpush
      obtain ⟨⟨ms₁, s₁⟩, hone, hpush⟩ := hpush
      have hsection : IsSection (start, stop, perm) area := hnew
      obtain ⟨h₁, -⟩ := (h.push_identical hsection.identical).of_eq_some hone
      obtain ⟨areas, hareas, hranges, h₂⟩ := ih h₁ hpush
      refine ⟨area :: areas, ?_, ?_, by rwa [append_assoc] at h₂⟩
      · refine forall_mem_cons.mpr ⟨⟨_, mem_cons_self, hsection⟩, fun other hmem => ?_⟩
        obtain ⟨range, hrange, hother⟩ := hareas other hmem
        exact ⟨range, mem_cons_of_mem _ hrange, hother⟩
      · refine forall_mem_cons.mpr ⟨⟨_, mem_cons_self, hsection⟩, fun range hmem => ?_⟩
        obtain ⟨other, hother, hrange⟩ := hranges range hmem
        exact ⟨other, mem_cons_of_mem _ hother, hrange⟩

/-- Ranges that are apart and off the trampoline are pushed unless frames run out. -/
theorem pushSections_yields {areas : List MapArea} (h : KernelInv L fixed [] ms s rest)
    (hareas : Forall₂ IsSection sections areas) (hapart : (fixed ++ areas).Pairwise Apart)
    (htrampoline : ∀ area ∈ areas, ¬area.Covers trampolineVpn) :
    Yields (ms.pushSections s sections)
      (L.high < L.low + (ms.frames.length + rest.length) +
        2 * (areas.map fun area => area.endVpn - area.startVpn).sum)
      fun r => KernelInv L (fixed ++ areas) [] r.1 r.2 rest ∧ r.1.frames.length ≤
        ms.frames.length + 2 * (areas.map fun area => area.endVpn - area.startVpn).sum := by
  induction hareas generalizing fixed ms s with
  | nil => exact ⟨by rwa [append_nil], Nat.le_add_right _ _⟩
  | @cons range area sections areas hsection _ ih =>
    simp only [map_cons, sum_cons]
    have hfree : ∀ vpn, area.Covers vpn → fixedMapping L fixed vpn = none := by
      intro vpn hcovers
      refine fixedMapping_eq_none.mpr ⟨?_, fun other hother hboth => ?_⟩
      · rintro rfl
        exact htrampoline area mem_cons_self hcovers
      · exact (pairwise_append.mp hapart).2.2 other hother area mem_cons_self vpn hboth hcovers
    rw [pushSections_cons hsection]
    refine bind (mono (h.push_identical hsection.identical) ?_
      fun _ _ hpost => hpost) ?_
    · rintro (⟨vpn, hcovers, hmapped⟩ | hfull)
      · exact absurd (hfree vpn hcovers) hmapped
      · omega
    · rintro ⟨ms₁, s₁⟩ - ⟨h₁, hlength₁⟩
      simp only at h₁ hlength₁
      refine mono (ih h₁ (by rwa [append_assoc])
        fun other hother => htrampoline other (mem_cons_of_mem _ hother)) (by omega) ?_
      rintro ⟨ms₂, s₂⟩ - ⟨h₂, hlength₂⟩
      exact ⟨by rwa [append_assoc] at h₂, by simp only at hlength₂ ⊢; omega⟩

/-! ## Framed areas -/

theorem insert_yields (h : KernelInv L fixed framed ms s rest) {startVa endVa : Nat}
    (hnew : new startVa endVa .framed perm = some area) (hstart : startVa < 2 ^ 39)
    (hend : endVa < 2 ^ 39) :
    Yields (ms.insertFramedArea s startVa endVa perm)
      ((∃ vpn, area.Covers vpn ∧ mappingOver (fixedMapping L fixed) framed vpn ≠ none) ∨
        L.high < L.low + (ms.frames.length + rest.length) + 3 * (area.endVpn - area.startVpn))
      fun r => ∃ area', area' = { area with dataFrames := area'.dataFrames } ∧
        (∀ vpn, area.Covers vpn → mappingOver (fixedMapping L fixed) framed vpn = none) ∧
        KernelInv L fixed (framed ++ [area']) r.1 r.2 rest ∧
        r.1.frames.length ≤ ms.frames.length + 3 * (area.endVpn - area.startVpn) := by
  have hfresh := fresh_of_new hnew hstart hend
  rw [MemorySet.insertFramedArea, hnew]
  change Yields (ms.push s area none) _ _
  refine bind (MemorySet.map_yields h.table h.owns hfresh) ?_
  rintro ⟨area', t', s'⟩ - ⟨hfree, hkeys, hext, howns, hlength⟩
  simp only at hkeys hext
  have htrampoline : mappingOver (fixedMapping L fixed) framed trampolineVpn ≠ none :=
    fun hnone => fixedMapping_trampoline (h.placed.eq_none.mp hnone).1
  obtain ⟨hcomplete, hapart, hoff⟩ := hfresh.placed h.placed htrampoline hfree hext.same hkeys
  refine ⟨area', hext.same, hfree, ⟨?_, howns, ?_, h.fixed_identical, hcomplete, hapart, hoff⟩,
    hlength⟩
  · rw [mappingOver_concat]
    exact hext.laid.table
  · rw [h.areas, append_assoc]

theorem remove_eq (h : KernelInv L fixed framed ms s rest) {before after : List MapArea}
    (hframed : framed = before ++ area :: after)
    (hfirst : ∀ other ∈ fixed ++ before, other.startVpn ≠ area.startVpn) :
    ∃ ms' s', ms.removeAreaWithStartVpn s area.startVpn = some (ms', s') ∧
      KernelInv L fixed (before ++ after) ms' s' rest ∧ ms'.frames.length ≤ ms.frames.length := by
  have hplaced := hframed ▸ h.placed
  have hareas : ms.areas = (fixed ++ before) ++ area :: after := by
    rw [h.areas, hframed, append_assoc]
  have hdata : MemorySet.dataFrames ⟨ms.pageTable, fixed ++ before ++ after⟩ =
      (before ++ after).flatMap frames := by
    rw [MemorySet.dataFrames, append_assoc, flatMap_append, frames_fixed h.fixed_identical, nil_append]
  have howns := h.owns
  rw [MemorySet.frames, h.dataFrames_eq, hframed] at howns
  obtain ⟨s', hunmap, htable, hcleared⟩ := hplaced.unmap_eq (hframed ▸ h.table) howns
  obtain ⟨hcomplete, hapart, hoff⟩ := hplaced.remove
  refine ⟨⟨ms.pageTable, fixed ++ before ++ after⟩, s', MemorySet.remove_of_unmap hareas hfirst hunmap,
    ⟨htable, ?_, by simp, h.fixed_identical, hcomplete, hapart, hoff⟩, ?_⟩
  · rw [MemorySet.frames, hdata, append_assoc]
    exact hcleared.owns
  · simp only [MemorySet.frames, hdata, h.dataFrames_eq, hframed, flatMap_append, flatMap_cons, length_append]
    omega

end KernelInv

/-! ## The space that the kernel starts with -/

/-- The page behind the physical memory. -/
def memoryEndVpn : Nat := 0x80800

/-- Every range of `new_kernel` ends within the physical memory. -/
theorem KernelImage.end_le (image : KernelImage) :
    ∀ range ∈ image.sections, range.2.1 ≤ memoryEnd := by
  have hmmio : usizeAdd 0x10001000 0x1000 ≤ memoryEnd := by decide
  simp [sections, mmio, image.etext_le, image.erodata_le, image.edata_le, image.ebss_le, hmmio]

theorem IsSection.endVpn_le (h : IsSection range area) (hend : range.2.1 ≤ memoryEnd) :
    area.endVpn ≤ memoryEndVpn := by
  obtain ⟨rfl, -⟩ := h.eq
  rw [memoryEnd] at hend
  simp only [memoryEndVpn]
  omega

theorem IsSection.covers_last {start : Nat} (hstart : start < memoryEnd)
    (h : IsSection (start, memoryEnd, perm) area) : area.Covers (memoryEndVpn - 1) := by
  obtain ⟨rfl, -⟩ := h.eq
  simp only [memoryEnd] at hstart
  simp only [Covers, memoryEnd, memoryEndVpn]
  omega

theorem SpaceInv.kernelInv (h : SpaceInv L ms s rest) (hareas : ms.areas = []) :
    KernelInv L [] [] ms s rest where
  table := by
    have htable := h.table
    rw [hareas] at htable
    rw [mappingOver_nil]
    exact htable
  owns := h.owns
  areas := hareas
  fixed_identical := by simp
  complete := by simp
  apart := Pairwise.nil
  free := by simp

theorem MemorySet.newKernel_spec {image : KernelImage}
    (howns : s.allocator.Owns image.low image.high rest)
    (hnew : MemorySet.newKernel image s = some (ms', s')) :
    ∃ fixed, KernelInv image.toLayout fixed [] ms' s' rest ∧
      (∀ area ∈ fixed, area.endVpn ≤ memoryEndVpn) ∧
      ∃ area ∈ fixed, area.Covers (memoryEndVpn - 1) := by
  rw [MemorySet.newKernel, do_eq_some_iff] at hnew
  obtain ⟨⟨ms, s₁⟩, htrampoline, hpush⟩ := hnew
  obtain ⟨hinv, hareas, -⟩ := (MemorySet.newWithTrampoline_yields howns).of_eq_some htrampoline
  obtain ⟨fixed, hareas, hranges, h⟩ := (hinv.kernelInv hareas).pushSections_spec hpush
  refine ⟨fixed, h, fun area hmem => ?_, ?_⟩
  · obtain ⟨range, hrange, hsection⟩ := hareas area hmem
    exact hsection.endVpn_le (image.end_le range hrange)
  · obtain ⟨area, hmem, hsection⟩ := hranges
      (image.ekernel, memoryEnd, MapPermission.R ||| MapPermission.W)
      (by simp [KernelImage.sections])
    exact ⟨area, hmem, hsection.covers_last image.ekernel_lt⟩

end RCore.Mm
