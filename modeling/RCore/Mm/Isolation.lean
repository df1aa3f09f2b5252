import RCore.Mm.Fork

/-!
# Isolation of address spaces

What a process sees through its page table, and what the steps of another space can
change of it.  After a fork the two spaces have the same contents and nothing in common
but the trampoline.
-/

namespace RCore.Mm

open RCore.Lib.Outcome Memory List MapArea Option PhysPageNum
open PageTableEntry (ppn_new isValid_new flags_new)
open PTEFlags (R V X)

variable {pte : PageTableEntry}

variable {L : Layout} {ms ms' : MemorySet} {s s' : PhysMem} {rest : List Nat} {vpn : Nat}

namespace MemorySet

/-- The byte at a virtual address. -/
def load (ms : MemorySet) (bytes : Memory) (va : Nat) : Option UInt8 := do
  let pte ← ms.translate bytes (va / pageSize)
  if pte.isValid then some (bytes (PhysPageNum.toPhysAddr pte.ppn + va % pageSize)) else none

/-- A write at a virtual address.  Permissions are not looked at: the kernel writes to
pages that the program may not write. -/
def store (ms : MemorySet) (s : PhysMem) (va : Nat) (b : UInt8) : Option PhysMem := do
  let pte ← ms.translate s.bytes (va / pageSize)
  if pte.isValid then
    some { s with
      bytes := Function.update s.bytes (PhysPageNum.toPhysAddr pte.ppn + va % pageSize) b }
  else none

end MemorySet

/-! ## Entries -/

namespace SpaceInv

section

variable (h : SpaceInv L ms s rest)
include h

theorem valid_cases (hpte : ms.translate s.bytes vpn = some pte) (hvalid : pte.isValid = true) :
    (vpn % 2 ^ 27 = trampolineVpn ∧
      pte = PageTableEntry.new L.trampolinePpn (R ||| X ||| V)) ∨
    ∃ area ∈ ms.areas, ∃ p, area.dataFrames.lookup (vpn % 2 ^ 27) = some p ∧
      pte = PageTableEntry.new p (area.mapPerm ||| V) := by
  obtain ⟨nodes, htable⟩ := h.table
  rw [MemorySet.translate, htable.translate_eq] at hpte
  obtain ⟨_, -, rfl⟩ := map_eq_some_iff.mp hpte
  cases he : mappingOf L ms.areas (vpn % 2 ^ 27) with
  | none =>
    rw [he] at hvalid
    exact absurd hvalid (by decide)
  | some e =>
    rcases mappingOf_eq_some he with ⟨hvpn, rfl⟩ | ⟨area, hmem, hentry⟩
    · exact .inl ⟨hvpn, rfl⟩
    · obtain ⟨p, hlookup, rfl⟩ := map_eq_some_iff.mp hentry
      exact .inr ⟨area, hmem, p, hlookup, rfl⟩

theorem translate_trampoline :
    ms.translate s.bytes trampolineVpn =
      some (PageTableEntry.new L.trampolinePpn (R ||| X ||| V)) := by
  obtain ⟨pte, hpte, hvalid⟩ := (h.isValid_iff (by decide)).mpr (.inl rfl)
  rcases h.valid_cases hpte hvalid with ⟨-, rfl⟩ | ⟨area, hmem, p, hlookup, -⟩
  · exact hpte
  · have hcomplete := h.complete area hmem
    exact absurd (hcomplete.lt_trampolineVpn (hcomplete.covers_of_lookup hlookup)) (by decide)

theorem ppn_of_valid (hpte : ms.translate s.bytes vpn = some pte) (hvalid : pte.isValid = true) :
    (vpn % 2 ^ 27 = trampolineVpn ∧ pte.ppn = L.trampolinePpn) ∨ pte.ppn ∈ ms.dataFrames := by
  rcases h.valid_cases hpte hvalid with ⟨hvpn, rfl⟩ | ⟨area, hmem, p, hlookup, rfl⟩
  · exact .inl ⟨hvpn, ppn_new L.trampolinePpn_lt_two_pow _⟩
  · have hp : p ∈ ms.frames := MemorySet.mem_frames hmem (mem_frames_of_lookup hlookup)
    rw [ppn_new (h.owns.lt (mem_append_left _ hp))]
    exact .inr (mem_flatMap.mpr ⟨area, hmem, mem_frames_of_lookup hlookup⟩)

theorem translate_congr {bytes : Memory}
    (hsame : ∀ x, x / 4096 ∈ ms.pageTable.frames → bytes x = s.bytes x) (vpn : Nat) :
    ms.translate bytes vpn = ms.translate s.bytes vpn := by
  obtain ⟨nodes, htable⟩ := h.table
  have htable' : TableInv ms.pageTable bytes (mappingOf L ms.areas) nodes := htable.congr hsame
  rw [MemorySet.translate, MemorySet.translate, htable'.translate_eq, htable.translate_eq]

theorem load_congr {bytes : Memory}
    (hsame : ∀ x, x / 4096 ∈ L.trampolinePpn :: ms.frames → bytes x = s.bytes x) (va : Nat) :
    ms.load bytes va = ms.load s.bytes va := by
  have htranslate := h.translate_congr
    (fun x hx => hsame x (mem_cons_of_mem _ (mem_append_left _ hx))) (va / pageSize)
  rw [MemorySet.load, MemorySet.load, htranslate]
  cases hpte : ms.translate s.bytes (va / pageSize) with
  | none => rfl
  | some pte =>
    simp only [do_some]
    split
    · rename_i hvalid
      rw [toPhysAddr_eq pte.ppn_lt, hsame]
      have hpage : (4096 * pte.ppn + va % pageSize) / 4096 = pte.ppn := by
        rw [pageSize]
        omega
      rw [hpage]
      rcases h.ppn_of_valid hpte hvalid with ⟨-, heq⟩ | hmem
      · rw [heq]
        exact mem_cons_self
      · exact mem_cons_of_mem _ (mem_append_right _ hmem)
    · rfl

end

end SpaceInv

/-! ## Steps -/

/-- What happens to a space: a write through it to a page other than the trampoline, or an
area comes or goes. -/
inductive SpaceStep : MemorySet → PhysMem → MemorySet → PhysMem → Prop where
  | store {ms : MemorySet} {s s' : PhysMem} {va : Nat} {b : UInt8} (hva : va < 2 ^ 39)
      (hne : va / 4096 ≠ trampolineVpn) (hstore : ms.store s va b = some s') :
      SpaceStep ms s ms s'
  | insert {ms ms' : MemorySet} {s s' : PhysMem} {startVa endVa : Nat} {perm : MapPermission}
      (hstart : startVa < 2 ^ 39) (hend : endVa < 2 ^ 39)
      (hinsert : ms.insertFramedArea s startVa endVa perm = some (ms', s')) :
      SpaceStep ms s ms' s'
  | remove {ms ms' : MemorySet} {s s' : PhysMem} {startVpn : Nat}
      (hremove : ms.removeAreaWithStartVpn s startVpn = some (ms', s')) : SpaceStep ms s ms' s'

theorem SpaceInv.store_spec (h : SpaceInv L ms s rest) {va : Nat} {b : UInt8} (hva : va < 2 ^ 39)
    (hne : va / 4096 ≠ trampolineVpn) (hstore : ms.store s va b = some s') :
    SpaceInv L ms s' rest ∧ SameOutside ms.frames s.bytes s'.bytes := by
  simp only [MemorySet.store, do_eq_some_iff, ite_none_right_eq_some, Option.some.injEq] at hstore
  obtain ⟨pte, hpte, hvalid, rfl⟩ := hstore
  have hdata : pte.ppn ∈ ms.dataFrames := by
    rcases h.ppn_of_valid hpte hvalid with ⟨hvpn, -⟩ | hmem
    · rw [pageSize, Nat.mod_eq_of_lt (by omega)] at hvpn
      exact absurd hvpn hne
    · exact hmem
  have hbytes : SameOutside ms.dataFrames s.bytes (Function.update s.bytes
      (toPhysAddr pte.ppn + va % pageSize) b) := by
    intro x hx
    rw [Function.update_of_ne]
    rintro rfl
    rw [toPhysAddr_eq pte.ppn_lt, pageSize,
      (by omega : (4096 * pte.ppn + va % 4096) / 4096 = pte.ppn)] at hx
    exact hx hdata
  have htargets : ms.dataFrames ⊆ ms.targets L := fun p hp =>
    mem_cons_of_mem _ (mem_cons_of_mem _ hp)
  exact ⟨h.write (hbytes.mono htargets), hbytes.mono (subset_append_right _ _)⟩

theorem SpaceInv.step (h : SpaceInv L ms s rest) (hstep : SpaceStep ms s ms' s') :
    SpaceInv L ms' s' rest ∧ SameOutside ms'.frames s.bytes s'.bytes := by
  cases hstep with
  | store hva hne hstore => exact h.store_spec hva hne hstore
  | insert hstart hend hinsert =>
    obtain ⟨_, _, -, hpushed⟩ := h.insert_spec hstart hend hinsert
    exact ⟨hpushed.inv, hpushed.bytes.mono hpushed.sub_area⟩
  | remove hremove =>
    rcases h.remove_spec hremove with ⟨rfl, rfl⟩ | ⟨area, -, hremoved⟩
    · exact ⟨h, .refl _ _⟩
    · refine ⟨hremoved.inv, hremoved.bytes.mono ?_⟩
      rw [← hremoved.pageTable]
      exact subset_append_left _ _

variable {a b b' : MemorySet}

namespace Both

theorem step (h : Both L a b s rest) (hstep : SpaceStep b s b' s') : Both L a b' s' rest := by
  obtain ⟨hinv, hbytes⟩ := h.second.step hstep
  exact h.first.beside hinv (hbytes.mono fun p hp =>
    mem_cons_of_mem _ (mem_cons_of_mem _ hp))

theorem notMem_seen (h : Both L a b s rest) {p : Nat} (hp : p ∈ L.trampolinePpn :: a.frames) :
    p ∉ b.frames := by
  intro hmem
  rcases mem_cons.mp hp with rfl | hp
  · have hrange := (h.second.owns.mem_range (mem_append_left _ hmem)).1
    exact Nat.not_le_of_lt L.trampolinePpn_lt hrange
  · exact h.disjoint hp hmem

theorem load_step (h : Both L a b s rest) (hstep : SpaceStep b s b' s') (va : Nat) :
    a.load s'.bytes va = a.load s.bytes va := by
  have hboth := h.step hstep
  exact h.first.load_congr (fun x hx => (h.second.step hstep).2 x (hboth.notMem_seen hx)) va

end Both

/-- The two spaces after any steps of either; in between other code allocates and frees
frames of its own and writes anywhere but to the two page tables. -/
inductive Later (L : Layout) (parent child : MemorySet) (s : PhysMem) :
    MemorySet → MemorySet → PhysMem → Prop where
  | refl : Later L parent child s parent child s
  | parent {a a' b : MemorySet} {t t' : PhysMem} (h : Later L parent child s a b t)
      (hstep : SpaceStep a t a' t') : Later L parent child s a' b t'
  | child {a b b' : MemorySet} {t t' : PhysMem} (h : Later L parent child s a b t)
      (hstep : SpaceStep b t b' t') : Later L parent child s a b' t'
  | other {a b : MemorySet} {t t' : PhysMem} {rest : List Nat} (h : Later L parent child s a b t)
      (hsame : ∀ x, x / 4096 ∈ a.pageTable.frames ++ b.pageTable.frames → t'.bytes x = t.bytes x)
      (howns : t'.allocator.Owns L.low L.high (a.frames ++ (b.frames ++ rest))) :
      Later L parent child s a b t'

theorem Both.later {parent child : MemorySet} {t : PhysMem} (h : Both L parent child s rest)
    (hlater : Later L parent child s a b t) : ∃ rest, Both L a b t rest := by
  induction hlater with
  | refl => exact ⟨rest, h⟩
  | parent _ hstep ih =>
    obtain ⟨rest, hboth⟩ := ih
    exact ⟨rest, (hboth.symm.step hstep).symm⟩
  | child _ hstep ih =>
    obtain ⟨rest, hboth⟩ := ih
    exact ⟨rest, hboth.step hstep⟩
  | @other a b t t' rest' _ hsame howns ih =>
    obtain ⟨rest, hboth⟩ := ih
    refine ⟨rest', hboth.first.other (fun x hx => hsame x ?_) howns,
      hboth.second.other (fun x hx => hsame x ?_) (howns.congr fun p => ?_)⟩
    · exact mem_append_left _ hx
    · exact mem_append_right _ hx
    · simp only [count_append]
      omega

/-! ## Copies -/

/-- The space of a process: made by `from_elf` or as a copy of such a space, after any
steps. -/
inductive UserReaches (L : Layout) (parse : List UInt8 → Option ElfFile) :
    MemorySet → PhysMem → Prop where
  | elf {s s' : PhysMem} {rest : List Nat} {elfData : List UInt8} {ms : MemorySet}
      {base entry : Nat} (howns : s.allocator.Owns L.low L.high rest)
      (hload : MemorySet.fromElf parse L.strampoline s elfData = some ((ms, base, entry), s')) :
      UserReaches L parse ms s'
  | fork {parent child : MemorySet} {s s' : PhysMem} (h : UserReaches L parse parent s)
      (hfork : MemorySet.fromExistedUser L.strampoline parent s = some (child, s')) :
      UserReaches L parse child s'
  | step {ms ms' : MemorySet} {s s' : PhysMem} (h : UserReaches L parse ms s)
      (hstep : SpaceStep ms s ms' s') : UserReaches L parse ms' s'
  | other {ms : MemorySet} {s s' : PhysMem} {rest : List Nat} (h : UserReaches L parse ms s)
      (hsame : ∀ x, x / 4096 ∈ ms.pageTable.frames → s'.bytes x = s.bytes x)
      (howns : s'.allocator.Owns L.low L.high (ms.frames ++ rest)) : UserReaches L parse ms s'

variable {parse : List UInt8 → Option ElfFile} {parent child : MemorySet} {s₀ : PhysMem}

theorem UserReaches.inv (h : UserReaches L parse ms s) : ∃ rest, SpaceInv L ms s rest := by
  induction h with
  | elf howns hload => exact ⟨_, (SpaceInv.of_fromElf howns hload).1⟩
  | fork _ hfork ih =>
    obtain ⟨rest, hinv⟩ := ih
    exact ⟨_, (hinv.fromExistedUser_yields.of_eq_some hfork).both.second⟩
  | step _ hstep ih =>
    obtain ⟨rest, hinv⟩ := ih
    exact ⟨rest, (hinv.step hstep).1⟩
  | other _ hsame howns ih =>
    obtain ⟨rest, hinv⟩ := ih
    exact ⟨_, hinv.other hsame howns⟩

namespace Copying

variable (h : Copying L parent s₀ rest parent.areas child s)
include h

theorem covers_iff : (∃ area ∈ child.areas, area.Covers vpn) ↔
    ∃ area ∈ parent.areas, area.Covers vpn := by
  have hiff : ∀ areas : List MapArea, (∃ area ∈ areas, area.Covers vpn) ↔
      ∃ r ∈ areas.map MapArea.range, r.1 ≤ vpn ∧ vpn < r.2.1 := by
    intro areas
    simp [Covers, MapArea.range]
  rw [hiff, hiff, h.areas]

theorem entry (hvpn : vpn < 2 ^ 27) (hparent : SpaceInv L parent s₀ rest)
    (hpte : child.translate s.bytes vpn = some pte) (hvalid : pte.isValid = true) :
    ∃ pte₀, parent.translate s₀.bytes vpn = some pte₀ ∧ pte₀.isValid = true ∧
      pte.flags = pte₀.flags ∧
      ∀ off < 4096, s.bytes (4096 * pte.ppn + off) = s₀.bytes (4096 * pte₀.ppn + off) := by
  have hchild := h.both.second
  rcases hchild.valid_cases hpte hvalid with ⟨htrampoline, rfl⟩ | ⟨area', hmem', p', hlookup', rfl⟩
  · rw [Nat.mod_eq_of_lt hvpn] at htrampoline
    have htranslate := hparent.translate_trampoline
    rw [← htrampoline] at htranslate
    refine ⟨_, htranslate, hvalid, rfl, fun off hoff => ?_⟩
    rw [ppn_new L.trampolinePpn_lt_two_pow]
    exact h.bytes.page (h.both.notMem_seen mem_cons_self) hoff
  · rw [Nat.mod_eq_of_lt hvpn] at hlookup'
    have hcovers' := (hchild.complete area' hmem').covers_of_lookup hlookup'
    have hrange : area'.range ∈ parent.areas.map MapArea.range :=
      h.areas ▸ mem_map_of_mem hmem'
    obtain ⟨area, hmem, heq⟩ := mem_map.mp hrange
    have hcovers := (covers_congr heq).mpr hcovers'
    obtain ⟨p, hlookup, -, hplt, htranslate⟩ := hparent.translate_of_covers hmem hcovers
    have hplt' : p' < 2 ^ 44 := hchild.owns.lt (mem_append_left _
      (MemorySet.mem_frames hmem' (mem_frames_of_lookup hlookup')))
    have hperm : area.mapPerm = area'.mapPerm := congrArg (·.2.2) heq
    refine ⟨_, htranslate, isValid_new hplt _, ?_, fun off hoff => ?_⟩
    · rw [flags_new hplt', flags_new hplt, hperm]
    · rw [ppn_new hplt', ppn_new hplt]
      exact h.pages area hmem area' hmem' vpn p p' hlookup hlookup' off hoff

end Copying

/-- **A copy of a space has the same contents and is isolated from it.**  In the copy that
`from_existed_user` returns, an entry is valid exactly if it was valid in an area of the
parent or is that of the trampoline; its permissions are the same, and its page holds the
same bytes.  The spaces have no frame in common and the parent is as it was.  Whatever
happens to the two spaces later, a write or another step of one changes no byte that is
seen through the other, and the trampoline cannot be written through either.  A copy is
returned while there are three frames and three for each page. -/
theorem from_existed_user_copies (h : UserReaches L parse parent s) :
    (∀ child s', MemorySet.fromExistedUser L.strampoline parent s = some (child, s') →
      (∀ vpn < 2 ^ 27, (∃ pte, child.translate s'.bytes vpn = some pte ∧ pte.isValid = true) ↔
        vpn = trampolineVpn ∨ ∃ area ∈ parent.areas, area.Covers vpn ∧
          ∃ pte, parent.translate s.bytes vpn = some pte ∧ pte.isValid = true) ∧
      (∀ vpn < 2 ^ 27, ∀ pte, child.translate s'.bytes vpn = some pte → pte.isValid = true →
        ∃ pte₀, parent.translate s.bytes vpn = some pte₀ ∧ pte₀.isValid = true ∧
          pte.flags = pte₀.flags ∧
          ∀ off < 4096, s'.bytes (4096 * pte.ppn + off) = s.bytes (4096 * pte₀.ppn + off)) ∧
      parent.frames.Disjoint child.frames ∧
      (∀ vpn, parent.translate s'.bytes vpn = parent.translate s.bytes vpn) ∧
      (∀ va, parent.load s'.bytes va = parent.load s.bytes va) ∧
      ∀ a b t, Later L parent child s' a b t →
        (∀ b' t', SpaceStep b t b' t' → ∀ va, a.load t'.bytes va = a.load t.bytes va) ∧
        (∀ a' t', SpaceStep a t a' t' → ∀ va, b.load t'.bytes va = b.load t.bytes va) ∧
        ∀ ms ∈ [a, b], ∀ pte, ms.translate t.bytes trampolineVpn = some pte →
          pte.flags &&& PTEFlags.W = 0) ∧
    (3 + 3 * pageCount parent.areas ≤ s.allocator.available →
      ∃ child s', MemorySet.fromExistedUser L.strampoline parent s = some (child, s')) := by
  obtain ⟨rest, hinv⟩ := h.inv
  have hyields := hinv.fromExistedUser_yields
  refine ⟨fun child s' hfork => ?_, fun henough => ?_⟩
  · have hcopying := hyields.of_eq_some hfork
    have hboth := hcopying.both
    have hsame : ∀ x, x / 4096 ∈ L.trampolinePpn :: parent.frames → s'.bytes x = s.bytes x :=
      fun x hx => hcopying.bytes x (hboth.notMem_seen hx)
    refine ⟨fun vpn hvpn => ?_, fun vpn hvpn pte hpte hvalid => ?_, ?_, ?_, ?_, ?_⟩
    · rw [hboth.second.isValid_iff hvpn, hcopying.covers_iff]
      refine or_congr_right ⟨?_, ?_⟩
      · rintro ⟨area, hmem, hcovers⟩
        exact ⟨area, hmem, hcovers, (hinv.isValid_iff hvpn).mpr (.inr ⟨area, hmem, hcovers⟩)⟩
      · rintro ⟨area, hmem, hcovers, -⟩
        exact ⟨area, hmem, hcovers⟩
    · exact hcopying.entry hvpn hinv hpte hvalid
    · exact fun p hp hp' => hboth.disjoint hp hp'
    · exact hinv.translate_congr fun x hx =>
        hsame x (List.mem_cons_of_mem _ (List.mem_append_left _ hx))
    · exact hinv.load_congr hsame
    · intro a b t hlater
      obtain ⟨rest', hpair⟩ := hboth.later hlater
      refine ⟨fun b' t' hstep => hpair.load_step hstep,
        fun a' t' hstep => hpair.symm.load_step hstep, ?_⟩
      have htrampoline : ∀ {ms rest}, SpaceInv L ms t rest → ∀ pte,
          ms.translate t.bytes trampolineVpn = some pte → pte.flags &&& PTEFlags.W = 0 := by
        intro ms rest hms pte hpte
        cases hms.translate_trampoline.symm.trans hpte
        rw [flags_new L.trampolinePpn_lt_two_pow]
        decide
      intro ms hms
      rcases List.mem_cons.mp hms with rfl | hms
      · exact htrampoline hpair.first
      · rw [List.mem_singleton.mp hms]
        exact htrampoline hpair.second
  · have havailable := hinv.owns.add_available
    rw [List.length_append] at havailable
    obtain ⟨⟨child, s'⟩, hfork, -⟩ := hyields.exists (by omega)
    exact ⟨child, s', hfork⟩

/-- A process with one area of two pages is forked. -/
theorem from_existed_user_copies_two_pages :
    ∃ parent s child s', UserReaches smallLayout (fun _ => some ⟨[], [], 0⟩) parent s ∧
      MemorySet.fromExistedUser smallLayout.strampoline parent s = some (child, s') ∧
      (∃ pte, child.translate s'.bytes 3 = some pte ∧ pte.isValid = true) ∧
      parent.frames.Disjoint child.frames := by
  have hfacts : ((MemorySet.fromElf (fun _ => some ⟨[], [], 0⟩) smallLayout.strampoline
      ⟨fun _ => 7, ⟨100, 200, []⟩⟩ []).bind fun r =>
        (r.1.1.insertFramedArea r.2 0x2000 0x4000 (MapPermission.R ||| MapPermission.U)).bind fun p =>
          (MemorySet.fromExistedUser smallLayout.strampoline p.1 p.2).bind fun c =>
            (c.1.translate c.2.bytes 3).map PageTableEntry.isValid) = some true := by decide +kernel
  obtain ⟨⟨⟨ms, base, entry⟩, s⟩, hload, hfacts⟩ := Option.bind_eq_some_iff.mp hfacts
  obtain ⟨⟨parent, s₁⟩, hinsert, hfacts⟩ := Option.bind_eq_some_iff.mp hfacts
  obtain ⟨⟨child, s'⟩, hfork, hfacts⟩ := Option.bind_eq_some_iff.mp hfacts
  have h := (UserReaches.elf owns_smallLayout hload).step (.insert (by decide) (by decide) hinsert)
  obtain ⟨-, -, hdisjoint, -⟩ := (from_existed_user_copies h).1 child s' hfork
  exact ⟨parent, s₁, child, s', h, hfork, Option.map_eq_some_iff.mp hfacts, hdisjoint⟩

end RCore.Mm
