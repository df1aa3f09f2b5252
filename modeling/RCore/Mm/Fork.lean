import Mathlib.Data.List.Pairwise
import RCore.Mm.UserSpace

/-!
# Copies of address spaces

`from_existed_user` maps the areas of a space again, in new frames, and copies them
page by page.  The copy maps the same pages with the same permissions and the same
bytes, and shares no frame with the original.
-/

namespace RCore.Mm

open RCore.Lib.Outcome Memory List MemorySet MapArea PhysPageNum Yields

/-! ## Copying pages -/

namespace Memory

variable {m : Memory} {dst src : Nat}

theorem copyFrame_inside (hdst : dst < 2 ^ 44) (hsrc : src < 2 ^ 44) {off : Nat}
    (hoff : off < 4096) : m.copyFrame dst src (4096 * dst + off) = m (4096 * src + off) := by
  rw [copyFrame, toPhysAddr_eq hdst, toPhysAddr_eq hsrc, pageSize,
    if_pos (by omega), Nat.add_sub_cancel_left]

theorem sameOutside_copyFrame (hdst : dst < 2 ^ 44) {frames : List Nat} (hmem : dst ∈ frames) :
    SameOutside frames m (m.copyFrame dst src) := by
  intro x hx
  rw [copyFrame, toPhysAddr_eq hdst, pageSize, if_neg]
  intro hin
  exact hx ((by omega : x / 4096 = dst) ▸ hmem)

theorem SameOutside.page {frames : List Nat} {m m' : Memory} (h : SameOutside frames m m') {p : Nat}
    (hp : p ∉ frames) {off : Nat} (hoff : off < 4096) :
    m' (4096 * p + off) = m (4096 * p + off) := by
  refine h _ ?_
  rwa [(by omega : (4096 * p + off) / 4096 = p)]

end Memory

namespace MapArea

variable {area : MapArea} {v w p : Nat}

theorem lookup_inj (hnodup : area.frames.Nodup) (hv : area.dataFrames.lookup v = some p)
    (hw : area.dataFrames.lookup w = some p) : v = w := by
  have hmem : ∀ {v}, area.dataFrames.lookup v = some p → (v, p) ∈ area.dataFrames := by
    intro v hv
    obtain ⟨before, after, heq, -⟩ := lookup_eq_some_iff.mp hv
    simp [heq]
  have hsame := inj_on_of_nodup_map hnodup (hmem hv) (hmem hw) rfl
  exact congrArg Prod.fst hsame

theorem mem_frames_of_lookup (hv : area.dataFrames.lookup v = some p) : p ∈ area.frames := by
  obtain ⟨before, after, heq, -⟩ := lookup_eq_some_iff.mp hv
  simp [frames, heq]

end MapArea

variable {L : Layout} {parent child child' : MemorySet} {s s₀ s' : PhysMem} {rest : List Nat}
  {area area' : MapArea} {vpn : Nat}

/-- Two spaces side by side. -/
structure Both (L : Layout) (parent child : MemorySet) (s : PhysMem) (rest : List Nat) :
    Prop where
  first : SpaceInv L parent s (child.frames ++ rest)
  second : SpaceInv L child s (parent.frames ++ rest)

variable {ms : MemorySet}

theorem SpaceInv.notMem_of_mem_rest (h : SpaceInv L ms s rest) {p : Nat} (hp : p ∈ rest) :
    p ∉ 0 :: L.trampolinePpn :: ms.frames := by
  have hlow := L.trampolinePpn_lt
  have hrange := (h.owns.mem_range (mem_append_right _ hp)).1
  simp only [mem_cons, not_or]
  refine ⟨by omega, by omega, fun hmem => ?_⟩
  exact (nodup_append.mp h.owns.nodup).2.2 _ hmem _ hp rfl

theorem SpaceInv.beside {others : List Nat} (h : SpaceInv L parent s others)
    (hchild : SpaceInv L child s' (parent.frames ++ rest))
    (hbytes : SameOutside (0 :: L.trampolinePpn :: child.frames) s.bytes s'.bytes) :
    Both L parent child s' rest := by
  refine ⟨h.other (fun x hx => hbytes x (hchild.notMem_of_mem_rest ?_)) ?_, hchild⟩
  · exact mem_append_left _ (mem_append_left _ hx)
  · refine hchild.owns.congr fun p => ?_
    simp only [count_append]
    omega

namespace Both

theorem symm (h : Both L parent child s rest) : Both L child parent s rest :=
  ⟨h.second, h.first⟩

theorem disjoint (h : Both L parent child s rest) {p : Nat} (hp : p ∈ parent.frames) :
    p ∉ child.frames := by
  obtain ⟨-, -, hdisjoint⟩ := nodup_append.mp h.first.owns.nodup
  exact fun hc => hdisjoint p hp p (mem_append_left _ hc) rfl

theorem write (h : Both L parent child s rest) {bytes : Memory}
    (hbytes : SameOutside (child.targets L) s.bytes bytes) :
    Both L parent child { s with bytes := bytes } rest := by
  refine h.first.beside (h.second.write hbytes) (hbytes.mono ?_)
  exact cons_subset_cons _ (cons_subset_cons _ (subset_append_right _ _))

end Both

theorem MemorySet.mem_targets {p : Nat} (hmem : area ∈ ms.areas) (hp : p ∈ area.frames) :
    p ∈ ms.targets L :=
  mem_cons_of_mem _ (mem_cons_of_mem _ (mem_flatMap.mpr ⟨area, hmem, hp⟩))

theorem MemorySet.mem_frames {p : Nat} (hmem : area ∈ ms.areas) (hp : p ∈ area.frames) :
    p ∈ ms.frames :=
  mem_append_right _ (mem_flatMap.mpr ⟨area, hmem, hp⟩)

theorem SpaceInv.nodup_area (h : SpaceInv L ms s rest) (hmem : area ∈ ms.areas) :
    area.frames.Nodup := by
  have hframes := (nodup_append.mp h.owns.nodup).1
  have hdata := (nodup_append.mp hframes).2.1
  exact (nodup_flatMap.mp hdata).1 area hmem

/-- The pages of `area'` hold what those of `area` held. -/
def SamePages (bytes₀ bytes : Memory) (area area' : MapArea) (v : Nat) : Prop :=
  ∀ p p', area.dataFrames.lookup v = some p → area'.dataFrames.lookup v = some p' →
    ∀ off < 4096, bytes (4096 * p' + off) = bytes₀ (4096 * p + off)

/-- The inner loop of `from_existed_user` copies the pages of a range. -/
theorem copyPages_spec (h : Both L parent child s rest) (harea : area ∈ parent.areas)
    (harea' : area' ∈ child.areas) (hstart : area'.startVpn = area.startVpn)
    (hend : area'.endVpn = area.endVpn) {n : Nat} (hlow : area.startVpn ≤ vpn)
    (hhigh : vpn + n ≤ area.endVpn) :
    ∃ bytes, copyPages parent child s.bytes vpn n = some bytes ∧
      SameOutside area'.frames s.bytes bytes ∧
      (∀ v, vpn ≤ v → v < vpn + n → SamePages s.bytes bytes area area' v) ∧
      ∀ v p', ¬(vpn ≤ v ∧ v < vpn + n) → area'.dataFrames.lookup v = some p' →
        ∀ off < 4096, bytes (4096 * p' + off) = s.bytes (4096 * p' + off) := by
  induction n generalizing vpn s with
  | zero =>
    exact ⟨s.bytes, rfl, .refl _ _, fun v hle hlt => by omega, fun _ _ _ _ _ _ => rfl⟩
  | succ n ih =>
    have hcovers : area.Covers vpn := ⟨hlow, by omega⟩
    have hcovers' : area'.Covers vpn := by
      rw [Covers, hstart, hend]
      exact hcovers
    obtain ⟨p, hlookup, hp, hplt, htranslate⟩ := h.first.translate_of_covers harea hcovers
    obtain ⟨p', hlookup', hp', hplt', htranslate'⟩ :=
      h.second.translate_of_covers harea' hcovers'
    have hnodup := h.second.nodup_area harea'
    let bytes₁ := s.bytes.copyFrame p' p
    have hwrite : SameOutside [p'] s.bytes bytes₁ :=
      sameOutside_copyFrame hplt' mem_cons_self
    have htargets : SameOutside (child.targets L) s.bytes bytes₁ :=
      hwrite.mono (by simpa using mem_targets harea' hp')
    obtain ⟨bytes, hcopy, hsame, hpages, hothers⟩ :=
      ih (h.write htargets) (by omega : area.startVpn ≤ vpn + 1) (by omega)
    refine ⟨bytes, ?_, ?_, ?_, ?_⟩
    · simp only [copyPages, htranslate, htranslate', do_some, PageTableEntry.ppn_new hplt,
        PageTableEntry.ppn_new hplt']
      exact hcopy
    · exact (hwrite.mono (by simpa using hp')).trans hsame (Subset.refl _)
    · intro v hle hlt
      rcases Nat.eq_or_lt_of_le hle with rfl | hlt'
      · -- the page is copied now and not written again
        intro q q' hq hq' off hoff
        cases hlookup.symm.trans hq
        cases hlookup'.symm.trans hq'
        rw [hothers vpn p' (by omega) hlookup' off hoff]
        exact copyFrame_inside hplt' hplt hoff
      · intro q q' hq hq' off hoff
        have hne : q ∉ [p'] := by
          intro hmem
          rw [mem_singleton] at hmem
          refine h.disjoint (mem_frames harea (mem_frames_of_lookup hq)) ?_
          rw [hmem]
          exact mem_frames harea' hp'
        rw [hpages v hlt' (by omega) q q' hq hq' off hoff]
        exact hwrite.page hne hoff
    · intro v q' hout hq' off hoff
      have hne : q' ∉ [p'] := by
        intro hmem
        rw [mem_singleton] at hmem
        rw [hmem] at hq'
        have := lookup_inj hnodup hq' hlookup'
        omega
      rw [hothers v q' (by omega) hq' off hoff]
      exact hwrite.page hne hoff

/-! ## Copying areas -/

namespace MapArea

/-- What `from_another` takes over. -/
def range (area : MapArea) : Nat × Nat × MapPermission :=
  (area.startVpn, area.endVpn, area.mapPerm)

theorem covers_congr (h : area'.range = area.range) : area'.Covers vpn ↔ area.Covers vpn := by
  obtain ⟨hstart, hend, -⟩ : area'.startVpn = area.startVpn ∧ area'.endVpn = area.endVpn ∧
      area'.mapPerm = area.mapPerm := by simpa [range] using h
  rw [Covers, Covers, hstart, hend]

theorem Complete.covers_of_lookup (h : area.Complete) {p : Nat}
    (hlookup : area.dataFrames.lookup vpn = some p) : area.Covers vpn := by
  by_contra hnot
  have hnone := h.entry_eq_none.mpr hnot
  simp [entry, hlookup] at hnone

end MapArea

theorem SpaceInv.area_unique (h : SpaceInv L ms s rest) (harea : area ∈ ms.areas)
    (harea' : area' ∈ ms.areas) (hcovers : area.Covers vpn) (hcovers' : area'.Covers vpn) :
    area = area' := by
  have hsymm : Std.Symm Apart := ⟨fun a b hab v hb ha => hab v ha hb⟩
  by_contra hne
  exact h.apart.forall harea harea' hne vpn hcovers hcovers'

/-- The areas `copied` of the parent have been copied to the child. -/
structure Copying (L : Layout) (parent : MemorySet) (s₀ : PhysMem) (rest : List Nat)
    (copied : List MapArea) (child : MemorySet) (s : PhysMem) : Prop where
  both : Both L parent child s rest
  bytes : SameOutside child.frames s₀.bytes s.bytes
  areas : child.areas.map MapArea.range = copied.map MapArea.range
  pages : ∀ area ∈ parent.areas, ∀ area' ∈ child.areas, ∀ v, SamePages s₀.bytes s.bytes area area' v

namespace Copying

variable {copied remaining : List MapArea}

theorem free (h : Copying L parent s₀ rest copied child s)
    (hparent : parent.areas = copied ++ area :: remaining) (hcovers : area.Covers vpn) :
    mappingOf L child.areas vpn = none := by
  have hmem : area ∈ parent.areas := by simp [hparent]
  refine h.both.second.mappingOf_eq_none.mpr
    ⟨Nat.ne_of_lt ((h.both.first.complete area hmem).lt_trampolineVpn hcovers), ?_⟩
  intro area' harea' hcovers'
  have hrange : area'.range ∈ copied.map MapArea.range :=
    h.areas ▸ mem_map_of_mem harea'
  obtain ⟨other, hother, heq⟩ := mem_map.mp hrange
  have hcross := (pairwise_append.mp (hparent ▸ h.both.first.apart)).2.2
  exact hcross other hother area mem_cons_self vpn ((covers_congr heq).mpr hcovers') hcovers

/-- One area is mapped in the child and its pages are copied. -/
theorem step (h : Copying L parent s₀ rest copied child s)
    (hparent : parent.areas = copied ++ area :: remaining) {newArea : MapArea}
    (hnew : fromAnother area = some newArea)
    (hpushed : Pushed L child s (parent.frames ++ rest) newArea area' child' s') :
    ∃ bytes, copyPages parent child' s'.bytes area.startVpn
        (area.endVpn - area.startVpn) = some bytes ∧
      Copying L parent s₀ rest (copied ++ [area]) child' { s' with bytes := bytes } := by
  have hmem : area ∈ parent.areas := by simp [hparent]
  have harea := h.both.first.complete area hmem
  have hle := harea.le
  have hrange : area'.range = area.range := by
    rw [fromAnother, if_pos hle] at hnew
    rw [hpushed.same, ← Option.some.inj hnew]
    rfl
  obtain ⟨hstart, hend, -⟩ : area'.startVpn = area.startVpn ∧ area'.endVpn = area.endVpn ∧
      area'.mapPerm = area.mapPerm := by simpa [MapArea.range] using hrange
  have hmem' : area' ∈ child'.areas := by simp [hpushed.areas]
  have hboth : Both L parent child' s' rest := h.both.first.beside hpushed.inv hpushed.loaded.bytes
  obtain ⟨bytes, hcopy, hsame, hpages, -⟩ := copyPages_spec hboth hmem hmem' hstart hend
    (Nat.le_refl _) (by omega : area.startVpn + (area.endVpn - area.startVpn) ≤ area.endVpn)
  have hsub' : area'.frames ⊆ child'.frames := fun p hp => mem_frames hmem' hp
  have htargets : SameOutside (child'.targets L) s'.bytes bytes :=
    hsame.mono fun p hp => mem_targets hmem' hp
  have hpush : SameOutside child'.frames s.bytes s'.bytes := hpushed.bytes.mono hpushed.sub_area
  have hbefore : SameOutside child'.frames s₀.bytes s'.bytes :=
    (h.bytes.mono hpushed.sub_frames).trans hpush (Subset.refl _)
  refine ⟨bytes, hcopy, hboth.write htargets, ?_, ?_, ?_⟩
  · exact hbefore.trans (hsame.mono hsub') (Subset.refl _)
  · simp [hpushed.areas, h.areas, hrange]
  · intro a ha a' ha' v p p' hp hp' off hoff
    rw [hpushed.areas] at ha'
    rcases mem_append.mp ha' with hold | hlast
    · -- the pages copied before are not written now
      have hmemp : p' ∈ a'.frames := mem_frames_of_lookup hp'
      have hnot := hpushed.inv.notMem_of_old hpushed.areas hold hmemp
      rw [← h.pages a ha a' hold v p p' hp hp' off hoff, ← hpushed.bytes.page hnot hoff]
      exact hsame.page (fun hin => hnot (mem_append_right _ hin)) hoff
    · obtain rfl := mem_singleton.mp hlast
      have hcovers' := (hpushed.inv.complete a' hmem').covers_of_lookup hp'
      have hcovers := (covers_congr hrange).mp hcovers'
      obtain rfl := h.both.first.area_unique ha hmem
        ((h.both.first.complete a ha).covers_of_lookup hp) hcovers
      have hpage := hpages v hcovers.1 (by have := hcovers.2; omega) p p' hp hp' off hoff
      refine hpage.trans (hbefore.page (hboth.disjoint ?_) hoff)
      exact mem_frames ha (mem_frames_of_lookup hp)

end Copying

/-- The number of pages of areas. -/
def pageCount (areas : List MapArea) : Nat :=
  (areas.map fun area => area.endVpn - area.startVpn).sum

theorem Copying.copyAreas_yields {copied remaining : List MapArea}
    (h : Copying L parent s₀ rest copied child s) (hparent : parent.areas = copied ++ remaining) :
    Yields (copyAreas parent remaining child s)
      (L.high < L.low + (child.frames.length + (parent.frames.length + rest.length)) +
        3 * pageCount remaining)
      fun r => Copying L parent s₀ rest parent.areas r.1 r.2 := by
  induction remaining generalizing copied child s with
  | nil =>
    rw [append_nil] at hparent
    rw [hparent]
    exact h
  | cons area remaining ih =>
    have hmem : area ∈ parent.areas := by simp [hparent]
    have harea := h.both.first.complete area hmem
    obtain ⟨newArea, hnew⟩ : ∃ newArea, fromAnother area = some newArea :=
      ⟨_, if_pos harea.le⟩
    have heq : newArea = ⟨area.startVpn, area.endVpn, [], area.mapType, area.mapPerm⟩ := by
      rw [fromAnother, if_pos harea.le] at hnew
      exact (Option.some.inj hnew).symm
    have hbelow := harea.below
    rw [trampolineVpn] at hbelow
    have hfresh : newArea.Fresh := by
      rw [heq]
      refine ⟨harea.framed, rfl, harea.le, ?_, ?_⟩
      · exact Nat.lt_of_le_of_lt (Nat.le_trans harea.le hbelow) (by decide)
      · exact Nat.le_trans hbelow (by decide)
    have hstart : newArea.startVpn = area.startVpn := by rw [heq]
    have hend : newArea.endVpn = area.endVpn := by rw [heq]
    have hcovers : ∀ vpn, newArea.Covers vpn → area.Covers vpn := by
      intro vpn hcovers
      rwa [Covers, hstart, hend] at hcovers
    have hcount : pageCount (area :: remaining) =
        area.endVpn - area.startVpn + pageCount remaining := by simp [pageCount]
    simp only [copyAreas, hnew, do_some]
    refine (mono (h.both.second.push_yields hfresh) ?_ fun _ _ hpost => hpost).bind ?_
    · rintro (⟨vpn, hvpn, hmapped⟩ | hfull)
      · exact absurd (h.free hparent (hcovers vpn hvpn)) hmapped
      · rw [hstart, hend, length_append] at hfull
        omega
    · rintro ⟨child', s'⟩ - ⟨area', hpushed⟩
      simp only at hpushed
      obtain ⟨bytes, hcopy, hcopying⟩ := h.step hparent hnew hpushed
      have hlength := hpushed.length
      rw [hstart, hend] at hlength
      simp only [hcopy]
      refine mono (ih hcopying (by simp [hparent])) ?_ fun _ _ hpost => hpost
      omega

/-- `from_existed_user` copies the space, if there are frames. -/
theorem SpaceInv.fromExistedUser_yields (h : SpaceInv L parent s rest) :
    Yields (fromExistedUser L.strampoline parent s)
      (L.high < L.low + (parent.frames.length + rest.length) + 3 + 3 * pageCount parent.areas)
      fun r => Copying L parent s rest parent.areas r.1 r.2 := by
  have hunfold : fromExistedUser L.strampoline parent s =
      (newWithTrampoline L s).bind fun r =>
        copyAreas parent parent.areas r.1 r.2 := by
    simp only [fromExistedUser, newWithTrampoline, Option.bind_eq_bind, Option.bind_assoc]
  rw [hunfold]
  refine (mono (newWithTrampoline_yields h.owns) ?_ fun _ _ hpost => hpost).bind ?_
  · rw [length_append]
    omega
  · rintro ⟨child, s'⟩ - ⟨hinv, hareas, hlength, hbytes⟩
    simp only at hinv hareas hlength hbytes ⊢
    have hboth : Both L parent child s' rest := h.beside hinv (hbytes.mono fun p hp =>
      mem_cons_of_mem _ (mem_cons_of_mem _ hp))
    have hcopying : Copying L parent s rest [] child s' :=
      ⟨hboth, hbytes, by simp [hareas], by simp [hareas]⟩
    refine mono (hcopying.copyAreas_yields (nil_append _).symm) ?_ fun _ _ hpost => hpost
    omega

end RCore.Mm
