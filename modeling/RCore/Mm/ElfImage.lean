import RCore.Mm.Isolation

/-!
# The image of a program

What `from_elf` puts into a new space: the bytes of each segment, with zeros behind those of
the file since frames are cleared when they are allocated, and the permissions of its header.
-/

namespace RCore.Mm

open RCore.Lib.Outcome Memory List Option MapArea Yields
open MemorySet (fromElf fromElfLoop newWithTrampoline newWithTrampoline_yields mem_targets)
open PageTableEntry (ppn_new isValid_new flags_new)
open VirtAddr (ofUsize floor ofUsize_lt ofUsize_of_lt ceil)

/-! ## Segments -/

namespace ProgramHeader

variable (ph : ProgramHeader)

def startVpn : Nat := ph.virtualAddr / 4096

def endVpn : Nat := (ph.virtualAddr + ph.memSize + 4095) / 4096

/-- The page holds addresses of the segment. -/
def HasPage (vpn : Nat) : Prop := ph.startVpn ≤ vpn ∧ vpn < ph.endVpn

instance (vpn : Nat) : Decidable (ph.HasPage vpn) :=
  inferInstanceAs (Decidable (_ ∧ _))

/-- The bytes of the segment in the file. -/
def fileBytes (input : List UInt8) : List UInt8 := (input.drop ph.offset).take ph.fileSize

/-- A segment that `from_elf` can load: it starts at a page, ends below the trampoline, and its
part of the file is not longer than itself. -/
structure Loadable (input : List UInt8) : Prop where
  aligned : ph.virtualAddr % 4096 = 0
  pos : 0 < ph.memSize
  fileSize_le : ph.fileSize ≤ ph.memSize
  below : ph.virtualAddr + ph.memSize ≤ 4096 * trampolineVpn
  inFile : ph.offset + ph.fileSize ≤ input.length

/-- No page has addresses of both segments. -/
def PageDisjoint (ph other : ProgramHeader) : Prop :=
  ∀ vpn, ph.HasPage vpn → ¬other.HasPage vpn

/-- The area that is pushed for the segment. -/
def area : MapArea where
  startVpn := ph.startVpn
  endVpn := ph.endVpn
  dataFrames := []
  mapType := .framed
  mapPerm := ph.mapPerm

variable {ph} {input : List UInt8}

theorem new_eq_area (hbelow : ph.virtualAddr + ph.memSize ≤ 4096 * trampolineVpn) :
    new (ofUsize ph.virtualAddr)
      (ofUsize (usizeAdd ph.virtualAddr ph.memSize)) .framed ph.mapPerm = some ph.area := by
  rw [trampolineVpn] at hbelow
  have hend : ofUsize (usizeAdd ph.virtualAddr ph.memSize) =
      ph.virtualAddr + ph.memSize := by
    rw [usizeAdd, Nat.mod_eq_of_lt (by omega), ofUsize_of_lt (by omega)]
  rw [hend, ofUsize_of_lt (by omega), new, floor, ceil, pageFloor_eq, pageCeil_eq (by omega)]
  exact if_pos (by omega)

theorem fresh_area (hbelow : ph.virtualAddr + ph.memSize ≤ 4096 * trampolineVpn) :
    ph.area.Fresh :=
  fresh_of_new (new_eq_area hbelow) (ofUsize_lt _) (ofUsize_lt _)

theorem Loadable.data_eq (h : ph.Loadable input) (hinput : input.length < 2 ^ 64) :
    ph.data input = some (ph.fileBytes input) := by
  have hle := h.inFile
  have hstop : usizeAdd ph.offset ph.fileSize = ph.offset + ph.fileSize :=
    Nat.mod_eq_of_lt (by omega)
  rw [data, hstop, if_pos (by omega), Nat.add_sub_cancel_left, fileBytes]

theorem Loadable.length_fileBytes (h : ph.Loadable input) :
    (ph.fileBytes input).length = ph.fileSize := by
  have hle := h.inFile
  rw [fileBytes, length_take, length_drop]
  omega

theorem Loadable.getD_fileBytes (h : ph.Loadable input) (i : Nat) :
    (ph.fileBytes input).getD i 0 = if i < ph.fileSize then input.getD (ph.offset + i) 0 else 0 := by
  split
  · rename_i hlt
    rw [fileBytes, getD_eq_getElem?_getD, getElem?_take_of_lt hlt, getElem?_drop,
      getD_eq_getElem?_getD]
  · rename_i hge
    rw [getD_eq_getElem?_getD, getElem?_eq_none (by rw [h.length_fileBytes]; omega), getD_none]

end ProgramHeader

/-- The headers that `from_elf` loads. -/
def ElfFile.segments (elf : ElfFile) : List ProgramHeader :=
  elf.programHeaders.filter ProgramHeader.load

/-! ## Copying data to an area -/

variable {L : Layout} {ms ms' : MemorySet} {s s' : PhysMem} {rest : List Nat} {area : MapArea}
  {vpn : Nat} {data : List UInt8}

theorem Memory.writeBytes_apply (m : Memory) {p q off : Nat} {src : List UInt8} (hp : p < 2 ^ 44)
    (hsrc : src.length ≤ 4096) (hoff : off < 4096) : m.writeBytes p src (4096 * q + off) =
      if q = p ∧ off < src.length then src.getD off 0 else m (4096 * q + off) := by
  rw [writeBytes, PhysPageNum.toPhysAddr_eq hp]
  by_cases heq : q = p
  · subst heq
    rw [Nat.add_sub_cancel_left]
    by_cases hlt : off < src.length
    · rw [if_pos ⟨by omega, by omega⟩, if_pos ⟨rfl, hlt⟩]
    · rw [if_neg (by omega), if_neg (by omega)]
  · rw [if_neg (by omega), if_neg (by omega)]

/-- The pages of the area hold the data from its first page on, and zeros behind it. -/
def MapArea.Holds (area : MapArea) (bytes : Memory) (data : List UInt8) : Prop :=
  ∀ v p, area.dataFrames.lookup v = some p → ∀ off < 4096,
    bytes (4096 * p + off) = data.getD (4096 * (v - area.startVpn) + off) 0

/-- The loop of `copy_data` writes `n` pages from `vpn` on. -/
theorem SpaceInv.copyDataLoop_spec (h : SpaceInv L ms s rest) (hmem : area ∈ ms.areas)
    (data : List UInt8) {n : Nat} (hlow : area.startVpn ≤ vpn) (hhigh : vpn + n ≤ area.endVpn) :
    ∃ bytes, copyDataLoop ms.pageTable s.bytes vpn (pages data n) = some bytes ∧
      SameOutside area.frames s.bytes bytes ∧
      ∀ v p, area.dataFrames.lookup v = some p → ∀ off < 4096, bytes (4096 * p + off) =
        if vpn ≤ v ∧ v < vpn + n ∧ 4096 * (v - vpn) + off < data.length then
          data.getD (4096 * (v - vpn) + off) 0
        else s.bytes (4096 * p + off) := by
  induction n generalizing vpn s data with
  | zero =>
    refine ⟨s.bytes, rfl, .refl _ _, fun v p _ off _ => ?_⟩
    rw [if_neg (by omega)]
  | succ n ih =>
    have hcovers : area.Covers vpn := ⟨hlow, by omega⟩
    obtain ⟨p, hlookup, hp, hplt, htranslate⟩ := h.translate_of_covers hmem hcovers
    have hsrc : (data.take pageSize).length ≤ 4096 := length_take_le _ _
    let bytes₁ := s.bytes.writeBytes p (data.take pageSize)
    have hwrite : SameOutside [p] s.bytes bytes₁ :=
      s.bytes.sameOutside_writeBytes hplt hsrc mem_cons_self
    have htargets : SameOutside (ms.targets L) s.bytes bytes₁ :=
      hwrite.mono (by simpa using mem_targets hmem hp)
    obtain ⟨bytes, hcopy, hsame, hpages⟩ := ih (h.write htargets) (data.drop pageSize)
      (by omega : area.startVpn ≤ vpn + 1) (by omega)
    simp only at hpages
    refine ⟨bytes, ?_, ?_, fun v q hq off hoff => ?_⟩
    · have hpte : ms.pageTable.translate s.bytes vpn = _ := htranslate
      rw [pages, copyDataLoop, hpte, do_some, ppn_new hplt]
      exact hcopy
    · exact (hwrite.mono (by simpa using hp)).trans hsame (Subset.refl _)
    · have hfirst : bytes₁ (4096 * q + off) =
          if q = p ∧ off < (data.take pageSize).length then (data.take pageSize).getD off 0
          else s.bytes (4096 * q + off) := s.bytes.writeBytes_apply hplt hsrc hoff
      have hlength : (data.take pageSize).length = min 4096 data.length := length_take ..
      rw [hpages v q hq off hoff, length_drop, pageSize]
      by_cases hv : v = vpn
      · -- the page is written now and not again
        obtain rfl : q = p := by
          rw [hv, hlookup] at hq
          exact (Option.some.inj hq).symm
        rw [if_neg (by omega), hfirst, hlength, hv, Nat.sub_self, Nat.mul_zero, Nat.zero_add]
        by_cases hlt : off < data.length
        · rw [if_pos ⟨rfl, by omega⟩, if_pos (by omega), getD_eq_getElem?_getD,
            getElem?_take_of_lt (show off < pageSize from hoff),
            getD_eq_getElem?_getD]
        · rw [if_neg (by omega), if_neg (by omega)]
      · have hne : q ≠ p := by
          rintro rfl
          exact hv (lookup_inj (h.nodup_area hmem) hq hlookup)
        rw [hfirst.trans (if_neg fun hin => hne hin.1)]
        by_cases hin : vpn + 1 ≤ v ∧ v < vpn + 1 + n ∧
            4096 * (v - (vpn + 1)) + off < data.length - 4096
        · rw [if_pos hin, if_pos (by omega), getD_eq_getElem?_getD, getElem?_drop,
            getD_eq_getElem?_getD]
          congr 2
          omega
        · rw [if_neg hin, if_neg (by omega)]

/-- An area of a segment has been added with its data. -/
structure PushedData (L : Layout) (ms : MemorySet) (s : PhysMem) (rest : List Nat) (area : MapArea)
    (data : List UInt8) (ms' : MemorySet) (s' : PhysMem) : Prop where
  inv : SpaceInv L ms' s' rest
  areas : ∃ area', ms'.areas = ms.areas ++ [area'] ∧ area'.range = area.range ∧
    area'.Holds s'.bytes data ∧
    SameOutside (ms'.pageTable.frames ++ area'.frames) s.bytes s'.bytes
  length : ms'.frames.length ≤ ms.frames.length + 3 * (area.endVpn - area.startVpn)

theorem SpaceInv.map_zeroed (h : SpaceInv L ms s rest) (hfresh : area.Fresh)
    {area' : MapArea} {t' : PageTable} (hmap : area.map ms.pageTable s = some (area', t', s')) :
    area'.Zeroed s'.bytes := by
  have howns := h.owns
  rw [MemorySet.frames, append_assoc] at howns
  obtain ⟨-, -, -, hzero⟩ := (MapArea.map_yields h.table howns hfresh).of_eq_some hmap
  exact hzero

theorem SpaceInv.push_data_yields (h : SpaceInv L ms s rest) (hfresh : area.Fresh)
    (hpos : area.startVpn < area.endVpn)
    (hdata : data.length ≤ 4096 * (area.endVpn - area.startVpn)) :
    Yields (ms.push s area (some data)) (Refused L ms rest area) fun r =>
      PushedData L ms s rest area data r.1 r.2 := by
  refine (h.map_yields hfresh).bind ?_
  rintro ⟨area', t', s₁⟩ hmap hpushed
  simp only at hpushed
  have hzero := h.map_zeroed hfresh hmap
  have hrange : area'.range = area.range := by
    rw [hpushed.same]
    rfl
  have hstart : area'.startVpn = area.startVpn := congrArg Prod.fst hrange
  have hend : area'.endVpn = area.endVpn := congrArg (·.2.1) hrange
  have hmem : area' ∈ (MemorySet.mk t' (ms.areas ++ [area'])).areas := by simp
  have hframed : area'.mapType = .framed := (hpushed.inv.complete area' hmem).framed
  obtain ⟨bytes, hcopy, hsame, hpages⟩ := hpushed.inv.copyDataLoop_spec hmem data
    (n := max 1 ((data.length + (pageSize - 1)) / pageSize)) (Nat.le_refl _) (by
      rw [pageSize]
      omega)
  have hpush : area'.copyData t' s₁ data = some { s₁ with bytes := bytes } := by
    rw [copyData, if_pos hframed]
    exact bind_eq_some_iff.mpr ⟨bytes, hcopy, rfl⟩
  simp only [hpush, do_some, Yields]
  have htargets : SameOutside (MemorySet.targets L ⟨t', ms.areas ++ [area']⟩) s₁.bytes bytes :=
    hsame.mono fun p hp => mem_targets hmem hp
  refine ⟨hpushed.inv.write htargets, ⟨area', rfl, hrange, fun v p hp off hoff => ?_, ?_⟩,
    hpushed.length⟩
  · have hcovers := (hpushed.inv.complete area' hmem).covers_of_lookup hp
    have hlow := hcovers.1
    change bytes (4096 * p + off) = _
    rw [hpages v p hp off hoff]
    by_cases hlt : 4096 * (v - area'.startVpn) + off < data.length
    · rw [if_pos ⟨hlow, by rw [pageSize]; omega, hlt⟩]
    · rw [if_neg (by omega), hzero p (mem_frames_of_lookup hp) off hoff,
        getD_eq_getElem?_getD, getElem?_eq_none (by omega), getD_none]
  · exact hpushed.bytes.trans (hsame.mono (subset_append_right _ _)) (Subset.refl _)

/-! ## The loop over the headers -/

/-- The segments `done` are in the space, and nothing else is. -/
structure Imaged (L : Layout) (rest : List Nat) (input : List UInt8) (done : List ProgramHeader)
    (ms : MemorySet) (s : PhysMem) : Prop where
  inv : SpaceInv L ms s rest
  area_of : ∀ ph ∈ done, ∃ area ∈ ms.areas, area.range = ph.area.range ∧
    area.Holds s.bytes (ph.fileBytes input)
  header_of : ∀ area ∈ ms.areas, ∃ ph ∈ done, area.range = ph.area.range

namespace Imaged

variable {input : List UInt8} {done : List ProgramHeader} {ph : ProgramHeader}

theorem free (h : Imaged L rest input done ms s) (hph : ph.Loadable input)
    (hdisjoint : ∀ other ∈ done, other.PageDisjoint ph) (hcovers : ph.area.Covers vpn) :
    mappingOf L ms.areas vpn = none := by
  rw [h.inv.mappingOf_eq_none]
  constructor
  · have hlt : vpn < ph.endVpn := hcovers.2
    have hbelow := hph.below
    rw [ProgramHeader.endVpn] at hlt
    omega
  · intro area hmem hboth
    obtain ⟨other, hother, hrange⟩ := h.header_of area hmem
    exact hdisjoint other hother vpn ((covers_congr hrange).mp hboth) hcovers

theorem step (h : Imaged L rest input done ms s)
    (hpushed : PushedData L ms s rest ph.area (ph.fileBytes input) ms' s') :
    Imaged L rest input (done ++ [ph]) ms' s' := by
  obtain ⟨area', hareas, hrange, hholds, hbytes⟩ := hpushed.areas
  refine ⟨hpushed.inv, fun other hother => ?_, fun area hmem => ?_⟩
  · rcases mem_append.mp hother with hother | hother
    · obtain ⟨area, hmem, hsame, hold⟩ := h.area_of other hother
      refine ⟨area, by simp [hareas, hmem], hsame, fun v p hp off hoff => ?_⟩
      rw [← hold v p hp off hoff]
      exact hbytes.page (hpushed.inv.notMem_of_old hareas hmem (mem_frames_of_lookup hp)) hoff
    · obtain rfl := mem_singleton.mp hother
      exact ⟨area', by simp [hareas], hrange, hholds⟩
  · rw [hareas] at hmem
    rcases mem_append.mp hmem with hmem | hmem
    · obtain ⟨other, hother, hsame⟩ := h.header_of area hmem
      exact ⟨other, mem_append_left _ hother, hsame⟩
    · obtain rfl := mem_singleton.mp hmem
      exact ⟨ph, by simp, hrange⟩

end Imaged

/-- The number of pages of segments. -/
def segmentPages (segments : List ProgramHeader) : Nat :=
  (segments.map fun ph => ph.endVpn - ph.startVpn).sum

theorem segmentPages_cons (ph : ProgramHeader) (segments : List ProgramHeader) :
    segmentPages (ph :: segments) = (ph.area.endVpn - ph.area.startVpn) + segmentPages segments := by
  rw [segmentPages, map_cons, sum_cons]
  rfl

/-- Disjoint segments are loaded unless frames run out. -/
theorem Imaged.fromElfLoop_yields {input : List UInt8} {done headers : List ProgramHeader}
    (h : Imaged L rest input done ms s) (hinput : input.length < 2 ^ 64)
    (hloadable : ∀ ph ∈ headers.filter ProgramHeader.load, ph.Loadable input)
    (hdisjoint : (done ++ headers.filter ProgramHeader.load).Pairwise ProgramHeader.PageDisjoint)
    (maxEndVpn : Nat) :
    Yields (fromElfLoop input headers ms s maxEndVpn)
      (L.high < L.low + (ms.frames.length + rest.length) +
        3 * segmentPages (headers.filter ProgramHeader.load))
      fun r => Imaged L rest input (done ++ headers.filter ProgramHeader.load) r.1 r.2.1 := by
  induction headers generalizing done ms s maxEndVpn with
  | nil =>
    rw [filter_nil, append_nil]
    exact h
  | cons ph headers ih =>
    rw [fromElfLoop]
    by_cases hload : ph.load = true
    · rw [filter_cons_of_pos hload] at hloadable hdisjoint ⊢
      obtain ⟨hph, hloadable⟩ := forall_mem_cons.mp hloadable
      have hcross : ∀ other ∈ done, other.PageDisjoint ph := fun other hother =>
        (pairwise_append.mp hdisjoint).2.2 other hother ph mem_cons_self
      have hsplit : done ++ ph :: headers.filter ProgramHeader.load =
          done ++ [ph] ++ headers.filter ProgramHeader.load := by simp
      have hpos : ph.startVpn < ph.endVpn ∧
          ph.fileSize ≤ 4096 * (ph.endVpn - ph.startVpn) := by
        have hpos := hph.pos
        have haligned := hph.aligned
        have hle := hph.fileSize_le
        rw [ProgramHeader.startVpn, ProgramHeader.endVpn]
        omega
      simp only [if_pos hload, ProgramHeader.new_eq_area hph.below, hph.data_eq hinput, do_some]
      rw [hsplit] at hdisjoint ⊢
      refine bind (mono (h.inv.push_data_yields (ProgramHeader.fresh_area hph.below)
        hpos.1 (by rw [hph.length_fileBytes]; exact hpos.2)) ?_ fun _ _ hpost => hpost) ?_
      · rintro (⟨vpn, hcovers, hmapped⟩ | hfull)
        · exact absurd (h.free hph hcross hcovers) hmapped
        · rw [segmentPages_cons]
          omega
      · rintro ⟨ms₁, s₁⟩ - hpushed
        refine mono (ih (h.step hpushed) hloadable hdisjoint _) (fun hfull => ?_)
          fun _ _ hpost => hpost
        have hlength := hpushed.length
        simp only at hfull hlength
        rw [segmentPages_cons]
        omega
    · rw [filter_cons_of_neg hload] at hloadable hdisjoint ⊢
      rw [if_neg hload]
      exact ih h hloadable hdisjoint maxEndVpn

/-! ## The whole image -/

/-- The segments with their bytes and permissions, and no other page but the trampoline. -/
structure Image (elf : ElfFile) (ms : MemorySet) (bytes : Memory) : Prop where
  content : ∀ ph ∈ elf.segments, ∀ i < ph.memSize, ms.load bytes (ph.virtualAddr + i) =
    some (if i < ph.fileSize then elf.input.getD (ph.offset + i) 0 else 0)
  flags : ∀ ph ∈ elf.segments, ∀ vpn, ph.HasPage vpn → ∃ pte, ms.translate bytes vpn = some pte ∧
    pte.isValid = true ∧ pte.flags = ph.mapPerm ||| PTEFlags.V
  only : ∀ vpn < 2 ^ 27, (∃ pte, ms.translate bytes vpn = some pte ∧ pte.isValid = true) →
    vpn = trampolineVpn ∨ ∃ ph ∈ elf.segments, ph.HasPage vpn

theorem Imaged.image {elf : ElfFile} (h : Imaged L rest elf.input elf.segments ms s)
    (hloadable : ∀ ph ∈ elf.segments, ph.Loadable elf.input) : Image elf ms s.bytes := by
  refine ⟨fun ph hph i hi => ?_, fun ph hph vpn hpage => ?_, fun vpn hvpn hvalid => ?_⟩
  · obtain ⟨area, hmem, hrange, hholds⟩ := h.area_of ph hph
    have hload := hloadable ph hph
    have haligned := hload.aligned
    have hstart : area.startVpn = ph.startVpn := congrArg Prod.fst hrange
    have hcovers : area.Covers ((ph.virtualAddr + i) / pageSize) := by
      rw [covers_congr hrange]
      change ph.virtualAddr / 4096 ≤ (ph.virtualAddr + i) / 4096 ∧
        (ph.virtualAddr + i) / 4096 < (ph.virtualAddr + ph.memSize + 4095) / 4096
      omega
    obtain ⟨p, hlookup, -, hplt, htranslate⟩ := h.inv.translate_of_covers hmem hcovers
    have hoff : (ph.virtualAddr + i) % pageSize < 4096 := Nat.mod_lt _ (by decide)
    have hindex : 4096 * ((ph.virtualAddr + i) / pageSize - area.startVpn) +
        (ph.virtualAddr + i) % pageSize = i := by
      rw [hstart, pageSize, ProgramHeader.startVpn]
      omega
    rw [MemorySet.load, htranslate, do_some, if_pos (isValid_new hplt _), ppn_new hplt,
      PhysPageNum.toPhysAddr_eq hplt, hholds _ p hlookup _ hoff, hindex, hload.getD_fileBytes]
  · obtain ⟨area, hmem, hrange, -⟩ := h.area_of ph hph
    have hperm : area.mapPerm = ph.mapPerm := congrArg (·.2.2) hrange
    obtain ⟨p, -, -, hplt, htranslate⟩ :=
      h.inv.translate_of_covers hmem ((covers_congr hrange).mpr hpage)
    refine ⟨_, htranslate, isValid_new hplt _, ?_⟩
    rw [flags_new hplt, hperm]
  · rcases (h.inv.isValid_iff hvpn).mp hvalid with htrampoline | ⟨area, hmem, hcovers⟩
    · exact .inl htrampoline
    · obtain ⟨ph, hph, hrange⟩ := h.header_of area hmem
      exact .inr ⟨ph, hph, (covers_congr hrange).mp hcovers⟩

theorem MemorySet.fromElf_eq (parse : List UInt8 → Option ElfFile) (elfData : List UInt8) :
    fromElf parse L.strampoline s elfData =
      (newWithTrampoline L s).bind fun r => (parse elfData).bind fun elf =>
        (fromElfLoop elf.input elf.programHeaders r.1 r.2 0).bind fun r =>
          some ((r.1, usizeAdd (VirtPageNum.toVirtAddr r.2.2) pageSize, elf.entryPoint), r.2.1) := by
  simp only [fromElf, newWithTrampoline, bind_eq_bind, bind_assoc]

/-- **Programs are loaded exactly.**  For segments that can be loaded and have no page in
common, `from_elf` returns if there are frames for them, and in the space that it returns each
segment has the bytes of the file and zeros behind them, its pages have `U` and the permissions
of the header, and no other page but the trampoline is mapped. -/
theorem from_elf_loads_segments {parse : List UInt8 → Option ElfFile} {elfData : List UInt8}
    {elf : ElfFile} (howns : s.allocator.Owns L.low L.high rest) (hparse : parse elfData = some elf)
    (hinput : elf.input.length < 2 ^ 64) (hloadable : ∀ ph ∈ elf.segments, ph.Loadable elf.input)
    (hdisjoint : elf.segments.Pairwise ProgramHeader.PageDisjoint) :
    (∀ ms base entry s',
      MemorySet.fromElf parse L.strampoline s elfData = some ((ms, base, entry), s') →
        Image elf ms s'.bytes) ∧
    (3 + 3 * segmentPages elf.segments ≤ s.allocator.available →
      MemorySet.fromElf parse L.strampoline s elfData ≠ none) := by
  have hyields : Yields (fromElf parse L.strampoline s elfData)
      (L.high < L.low + rest.length + (3 + 3 * segmentPages elf.segments))
      fun r => Image elf r.1.1 r.2.bytes := by
    rw [MemorySet.fromElf_eq]
    refine Yields.bind (Yields.mono (newWithTrampoline_yields howns) (by omega)
      fun _ _ hpost => hpost) ?_
    rintro ⟨ms₁, s₁⟩ - ⟨hinv, hnil, hlength, -⟩
    simp only at hinv hnil hlength
    have hstart : Imaged L rest elf.input [] ms₁ s₁ := ⟨hinv, by simp, by simp [hnil]⟩
    simp only [hparse, Option.bind_some]
    refine Yields.bind (Yields.mono (hstart.fromElfLoop_yields hinput hloadable hdisjoint 0)
      (fun hfull => ?_) fun _ _ hpost => hpost) ?_
    · rw [← ElfFile.segments] at hfull
      omega
    · rintro ⟨ms₂, s₂, maxEndVpn⟩ - himaged
      exact himaged.image hloadable
  have havailable := howns.add_available
  refine ⟨fun ms base entry s' hload => hyields.of_eq_some hload, fun henough hnone => ?_⟩
  rw [hnone] at hyields
  have hfull : L.high < L.low + rest.length + (3 + 3 * segmentPages elf.segments) := hyields
  omega

/-- Two bytes of a file of three, and zeros up to the middle of the second page. -/
def smallElf : ElfFile where
  input := [7, 8, 9]
  programHeaders := [⟨true, 0x1000, 0x1800, 1, 2, true, false, true⟩]
  entryPoint := 0x1000

theorem from_elf_loads_segments_small : ∃ ms base entry s',
    MemorySet.fromElf (fun _ => some smallElf) smallLayout.strampoline
      ⟨fun _ => 7, ⟨100, 200, []⟩⟩ [] = some ((ms, base, entry), s') ∧
    Image smallElf ms s'.bytes := by
  have hloadable : ∀ ph ∈ smallElf.segments, ph.Loadable smallElf.input := by
    intro ph hmem
    obtain rfl : ph = ⟨true, 0x1000, 0x1800, 1, 2, true, false, true⟩ := by
      simpa [smallElf, ElfFile.segments] using hmem
    exact ⟨by decide, by decide, by decide, by decide, by decide⟩
  have hspec := @from_elf_loads_segments smallLayout ⟨fun _ => 7, ⟨100, 200, []⟩⟩ []
    (fun _ => some smallElf) [] smallElf owns_smallLayout rfl (by decide) hloadable
    (List.pairwise_singleton _ _)
  obtain ⟨⟨⟨ms, base, entry⟩, s'⟩, hload⟩ := Option.ne_none_iff_exists'.mp (hspec.2 (by decide))
  exact ⟨ms, base, entry, s', hload, hspec.1 ms base entry s' hload⟩

/-! ## The base of the user stacks -/

/-- `max_end_vpn` is the end of the last segment in the order of the headers. -/
theorem MemorySet.fromElfLoop_maxEndVpn {input : List UInt8} {headers : List ProgramHeader}
    {maxEndVpn maxEndVpn' : Nat}
    (hbelow : ∀ ph ∈ headers.filter ProgramHeader.load,
      ph.virtualAddr + ph.memSize ≤ 4096 * trampolineVpn)
    (hload : fromElfLoop input headers ms s maxEndVpn = some (ms', s', maxEndVpn')) :
    maxEndVpn' =
      ((headers.filter ProgramHeader.load).getLast?.map ProgramHeader.endVpn).getD maxEndVpn := by
  induction headers generalizing ms s maxEndVpn with
  | nil =>
    simp only [fromElfLoop, Option.some.injEq, Prod.mk.injEq] at hload
    exact hload.2.2.symm
  | cons ph headers ih =>
    rw [fromElfLoop] at hload
    by_cases hph : ph.load = true
    · rw [filter_cons_of_pos hph] at hbelow ⊢
      obtain ⟨hfirst, hbelow⟩ := forall_mem_cons.mp hbelow
      simp only [if_pos hph, ProgramHeader.new_eq_area hfirst, do_some, do_eq_some_iff] at hload
      obtain ⟨_, -, ⟨_, _⟩, -, hload⟩ := hload
      rw [ih hbelow hload, getLast?_cons]
      cases (headers.filter ProgramHeader.load).getLast? <;> rfl
    · rw [filter_cons_of_neg hph] at hbelow ⊢
      rw [if_neg hph] at hload
      exact ih hbelow hload

theorem MemorySet.fromElf_base {parse : List UInt8 → Option ElfFile} {elfData : List UInt8}
    {elf : ElfFile} {strampoline base entry : Nat} {last : ProgramHeader}
    (hparse : parse elfData = some elf)
    (hbelow : ∀ ph ∈ elf.segments, ph.virtualAddr + ph.memSize ≤ 2 ^ 38)
    (hlast : elf.segments.getLast? = some last)
    (hload : fromElf parse strampoline s elfData = some ((ms, base, entry), s')) :
    base = 4096 * last.endVpn + 4096 := by
  simp only [fromElf, hparse, do_eq_some_iff, Option.some.injEq, Prod.mk.injEq] at hload
  obtain ⟨_, -, _, -, _, rfl, ⟨_, _, maxEndVpn⟩, hloop, ⟨-, rfl, -⟩, -⟩ := hload
  simp only
  have hend := MemorySet.fromElfLoop_maxEndVpn (fun ph hph => by
    have hle := hbelow ph hph
    rw [trampolineVpn]
    omega) hloop
  rw [← ElfFile.segments, hlast, map_some, getD_some] at hend
  have hle := hbelow last (mem_of_getLast? hlast)
  have hlt : maxEndVpn ≤ 2 ^ 26 := by
    rw [hend, ProgramHeader.endVpn]
    omega
  rw [VirtPageNum.toVirtAddr_eq (by omega), hend, usizeAdd, pageSize, Nat.mod_eq_of_lt (by omega)]

/-- **When the user stacks are above the program.**  The base of the user stacks is at least one
page above the end of every segment exactly if no segment ends in a later page than the one
whose header is the last.  Then all pages of the program are below the guard page under the
stack of the main thread. -/
theorem stack_above_image_iff {parse : List UInt8 → Option ElfFile} {elfData : List UInt8}
    {elf : ElfFile} {base entry : Nat} (hparse : parse elfData = some elf)
    (hbelow : ∀ ph ∈ elf.segments, ph.virtualAddr + ph.memSize ≤ 2 ^ 38)
    (hload : MemorySet.fromElf parse L.strampoline s elfData = some ((ms, base, entry), s')) :
    ((∀ ph ∈ elf.segments, ph.virtualAddr + ph.memSize + pageSize ≤ base) ↔
      ∀ last, elf.segments.getLast? = some last → ∀ ph ∈ elf.segments, ph.endVpn ≤ last.endVpn) ∧
    ((∀ last, elf.segments.getLast? = some last → ∀ ph ∈ elf.segments, ph.endVpn ≤ last.endVpn) →
      ∀ ph ∈ elf.segments, ∀ vpn, ph.HasPage vpn → vpn + 1 < base / 4096) := by
  cases hlast : elf.segments.getLast? with
  | none =>
    have hnil : elf.segments = [] := List.getLast?_eq_none_iff.mp hlast
    simp [hnil]
  | some last =>
    have hbase := MemorySet.fromElf_base hparse hbelow hlast hload
    have hends : ∀ ph : ProgramHeader,
        ph.virtualAddr + ph.memSize + pageSize ≤ base ↔ ph.endVpn ≤ last.endVpn := by
      intro ph
      rw [hbase, pageSize]
      unfold ProgramHeader.endVpn
      omega
    simp only [Option.some.injEq, forall_eq']
    refine ⟨forall₂_congr fun ph _ => hends ph, fun hhighest ph hph vpn hpage => ?_⟩
    have hle := hhighest ph hph
    have hlt := hpage.2
    omega

/-- Two segments, the first of which is the higher one. -/
def descendingElf : ElfFile where
  input := []
  programHeaders := [⟨true, 0x3000, 0x1000, 0, 0, true, true, false⟩,
    ⟨true, 0x1000, 0x1000, 0, 0, true, false, true⟩]
  entryPoint := 0x1000

theorem stack_above_image_iff_small : ∃ ms base entry s',
    MemorySet.fromElf (fun _ => some smallElf) smallLayout.strampoline
      ⟨fun _ => 7, ⟨100, 200, []⟩⟩ [] = some ((ms, base, entry), s') ∧
    ∀ ph ∈ smallElf.segments, ph.virtualAddr + ph.memSize + pageSize ≤ base := by
  have hsome : (fromElf (fun _ => some smallElf) smallLayout.strampoline
      ⟨fun _ => 7, ⟨100, 200, []⟩⟩ []).isSome = true := by decide +kernel
  obtain ⟨⟨⟨ms, base, entry⟩, s'⟩, hload⟩ := Option.isSome_iff_exists.mp hsome
  refine ⟨ms, base, entry, s', hload, ?_⟩
  have hiff := @stack_above_image_iff smallLayout ms _ s' (fun _ => some smallElf) [] smallElf base
    entry rfl (by decide) hload
  exact hiff.1.mpr (by decide)

/-- The stack of the main thread is placed on the first segment, and the kernel panics when it
maps the stack. -/
theorem stack_on_image : ∃ ms base entry s',
    MemorySet.fromElf (fun _ => some descendingElf) smallLayout.strampoline
      ⟨fun _ => 7, ⟨100, 200, []⟩⟩ [] = some ((ms, base, entry), s') ∧
    descendingElf.segments.Pairwise ProgramHeader.PageDisjoint ∧
    (¬∀ ph ∈ descendingElf.segments, ph.virtualAddr + ph.memSize + pageSize ≤ base) ∧
    (∃ ph ∈ descendingElf.segments, ph.HasPage (base / 4096)) ∧
    ms.insertFramedArea s' base (base + 0x2000)
      (MapPermission.R ||| MapPermission.W ||| MapPermission.U) = none := by
  have hfacts : (fromElf (fun _ => some descendingElf) smallLayout.strampoline
      ⟨fun _ => 7, ⟨100, 200, []⟩⟩ []).map (fun r => (r.1.2.1,
        (r.1.1.insertFramedArea r.2 r.1.2.1 (r.1.2.1 + 0x2000)
          (MapPermission.R ||| MapPermission.W ||| MapPermission.U)).isNone)) =
      some (0x3000, true) := by decide +kernel
  obtain ⟨⟨⟨ms, base, entry⟩, s'⟩, hload, hfacts⟩ := Option.map_eq_some_iff.mp hfacts
  simp only [Prod.mk.injEq, Option.isNone_iff_eq_none] at hfacts
  obtain ⟨rfl, hinsert⟩ := hfacts
  refine ⟨ms, 0x3000, entry, s', hload, ?_, by decide, ?_, hinsert⟩
  · rw [ElfFile.segments, descendingElf]
    simp only [List.filter, List.pairwise_cons, List.mem_singleton, forall_eq]
    refine ⟨fun vpn hfirst hsecond => ?_, by simp, List.Pairwise.nil⟩
    simp only [ProgramHeader.HasPage, ProgramHeader.startVpn, ProgramHeader.endVpn] at hfirst hsecond
    omega
  · decide

end RCore.Mm
