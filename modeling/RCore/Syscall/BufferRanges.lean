import RCore.Mm.ByteBuffer
import RCore.Syscall.UserAccess

/-!
# Buffers of system calls

`sys_read` and `sys_write` pass the address and the length they are called with on to
`translated_byte_buffer`, whatever these are.
-/

namespace RCore.Syscall

open RCore.Mm RCore.Task
open VirtAddr (ofUsize floor ofUsize_lt ofUsize_eq ofUsize_of_lt)
open BufferLoop (InOrder push run run_of_inOrder run_of_translate_eq_none sliceEnd)

/-- **A range below 2^39 whose pages have entries is returned whole**: in slices that are
not empty and do not cross pages, whose bytes are those of the range, one after the other,
and the iterator of the buffer returns exactly these bytes. -/
theorem translatedByteBuffer_covers (token : Nat) (bytes : Memory) (ptr len : Nat)
    (hend : ptr + len < 2 ^ 39)
    (hmapped : ∀ va, ptr ≤ va → va < ptr + len →
      ∃ pte, (PageTable.fromToken token).translate bytes (VirtAddr.floor va) = some pte) :
    ∃ slices,
      (∀ turns, len / 4096 + 2 ≤ turns →
        translatedByteBuffer token bytes ptr len turns = some slices) ∧
      (∀ b ∈ slices, 0 < b.len ∧ b.addr / 4096 = (b.addr + b.len - 1) / 4096) ∧
      (slices.map Slice.len).sum = len ∧
      (∀ i < len, (slices.flatMap Slice.addrs)[i]? =
        (PageTable.fromToken token).translateVa bytes (VirtAddr.ofUsize (ptr + i))) ∧
      (UserBuffer.mk slices).len = len ∧
      (UserBuffer.mk slices).intoIter.collect (len + 1) = some (slices.flatMap Slice.addrs) := by
  have hstop : usizeAdd ptr len = ptr + len := by
    rw [usizeAdd]
    omega
  obtain ⟨slices, hrun, hslices⟩ : ∃ slices, BufferLoop.run (PageTable.fromToken token) bytes
      (ptr + len) ptr (len / 4096 + 2) = .returned slices ∧
      ∀ b ∈ slices, 0 < b.len ∧ b.addr % 4096 + b.len ≤ 4096 := by
    refine (BufferLoop.run_below _ bytes hend (by omega)).resolve_left ?_
    rintro ⟨va, hle, hlt, hnone, -⟩
    obtain ⟨pte, hpte⟩ := hmapped va hle hlt
    rw [floor, pageFloor_eq, hnone] at hpte
    cases hpte
  have hloop : translatedByteBufferLoop (PageTable.fromToken token) bytes (ptr + len) ptr
      (len / 4096 + 2) = some slices := by
    rw [← BufferLoop.toOption_run, hrun, BufferLoop.toOption]
  obtain ⟨hlength, hstand⟩ := translatedByteBufferLoop_spec hloop
  rw [Nat.add_sub_cancel_left] at hlength
  have hsum : (slices.map Slice.len).sum = len := by rw [← length_flatMap_addrs, hlength]
  have hlen : (UserBuffer.mk slices).len = len := by rw [UserBuffer.len_eq, hsum]
  refine ⟨slices, fun turns hturns => ?_, fun b hb => ?_, hsum, fun i hi => ?_, hlen, ?_⟩
  · rw [translatedByteBuffer, hstop]
    exact translatedByteBufferLoop_mono hloop hturns
  · obtain ⟨hpos, hpage⟩ := hslices b hb
    exact ⟨hpos, by omega⟩
  · rw [hstand i (by omega), List.getElem?_eq_getElem]
  · have hpos (b : Slice) (hb : b ∈ slices) : 0 < b.len := (hslices b hb).1
    exact UserBufferIterator.collect_eq (UserBuffer.mk slices).position_intoIter
      (fun b hb => hpos b (List.mem_of_getElem? hb)) hpos (by simp only [UserBuffer.intoIter]; omega)

/-- A buffer on the user stack of the main thread, across a page boundary. -/
theorem translatedByteBuffer_covers_stack : ∃ ms s slices,
    UserReaches smallLayout (fun _ => some ⟨[], [], 0⟩) ms s ∧
      translatedByteBuffer ms.pageTable.token s.bytes 0x1ff8 16 2 = some slices ∧
      (UserBuffer.mk slices).len = 16 ∧
      (UserBuffer.mk slices).intoIter.collect 17 = some (slices.flatMap Slice.addrs) := by
  have hfacts : (mainSpace.map fun r =>
      let t := PageTable.fromToken r.1.pageTable.token
      ((t.translate r.2.bytes 1).isSome, (t.translate r.2.bytes 2).isSome)) = some (true, true) := by
    decide +kernel
  obtain ⟨⟨ms, s⟩, hspace, hfacts⟩ := Option.map_eq_some_iff.mp hfacts
  obtain ⟨hfirst, hsecond⟩ := Prod.mk.inj hfacts
  have hmapped (va : Nat) (hlow : 0x1ff8 ≤ va) (hhigh : va < 0x1ff8 + 16) : ∃ pte,
      (PageTable.fromToken ms.pageTable.token).translate s.bytes (floor va) = some pte := by
    rw [← Option.isSome_iff_exists, floor, pageFloor_eq]
    rcases (by omega : va / 4096 = 1 ∨ va / 4096 = 2) with hpage | hpage
    · rw [hpage, hfirst]
    · rw [hpage, hsecond]
  obtain ⟨slices, hreturns, -, -, -, hlen, hcollect⟩ :=
    translatedByteBuffer_covers ms.pageTable.token s.bytes 0x1ff8 16 (by decide) hmapped
  exact ⟨ms, s, slices, mainSpace_reaches hspace, hreturns 2 (Nat.le_refl _), hlen, hcollect⟩

/-! ## Any address and any length -/

/-- The loop makes at most `len / 4096 + 2` iterations; it returns all bytes of the range or
fails on a page without an entry. -/
def EndsInTime (token : Nat) (bytes : Memory) (ptr len : Nat) : Prop :=
  BufferLoop.run (PageTable.fromToken token) bytes (usizeAdd ptr len) ptr (len / 4096 + 2) =
      .untranslatable ∨
    ∃ slices, BufferLoop.run (PageTable.fromToken token) bytes (usizeAdd ptr len) ptr
      (len / 4096 + 2) = .returned slices ∧ (slices.map Slice.len).sum = len

/-- From `first` to `last`, the low bits of the start and the end of a range, the loop comes
to a page without an entry. -/
def MeetsHole (t : PageTable) (bytes : Memory) (first last : Nat) : Prop :=
  if first ≤ last then
    ∃ vpn, first / 4096 ≤ vpn ∧ vpn ≤ last / 4096 ∧ t.translate bytes vpn = none
  else
    t.translate bytes (first / 4096) = none ∨
      t.translate bytes (last / 4096) = none ∧
        (last % 4096 = 0 ∨ first % 4096 ≤ last % 4096)

variable {t : PageTable} {bytes : Memory} {ptr len stop : Nat}

theorem run_high_of_hole {turns : Nat} (hlt : ptr < stop) (hstop : 2 ^ 39 ≤ stop)
    (hturns : ofUsize stop / 4096 < ofUsize ptr / 4096 + turns)
    (htwo : 2 ≤ turns)
    (hhole : MeetsHole t bytes (ofUsize ptr) (ofUsize stop)) :
    run t bytes stop ptr turns = .untranslatable := by
  obtain ⟨turns, rfl⟩ := Nat.exists_eq_add_of_le' htwo
  rw [MeetsHole] at hhole
  split at hhole
  · rename_i hle
    obtain ⟨vpn, hfirst, hlast, hnone⟩ := hhole
    exact BufferLoop.run_eq_untranslatable hlt hstop hfirst hlast hle hnone (by omega)
  · rename_i hgt
    rcases hhole with hnone | ⟨hnone, horder⟩
    · exact run_of_translate_eq_none hlt hnone (turns + 1)
    · cases hpte : t.translate bytes (ofUsize ptr / 4096) with
      | none => exact run_of_translate_eq_none hlt hpte (turns + 1)
      | some pte =>
        -- the first slice ends at the low bits of the end, before it starts
        have hend : sliceEnd ptr stop = ofUsize stop := by
          rw [sliceEnd]
          omega
        have hlow := ofUsize_of_lt (ofUsize_lt stop)
        obtain ⟨slice, hrun⟩ := run_of_inOrder hlt hpte (by rwa [InOrder, hend]) (turns + 1)
        have hrest : run t bytes stop (ofUsize stop) (turns + 1) =
            .untranslatable :=
          run_of_translate_eq_none
            (Nat.lt_of_lt_of_le (ofUsize_lt stop) hstop) (by rw [hlow, hnone]) turns
        rw [hrun, hend, hrest, push]

theorem run_high_of_no_hole (hlt : ptr < stop) (hstop : 2 ^ 39 ≤ stop)
    (hhole : ¬MeetsHole t bytes (ofUsize ptr) (ofUsize stop)) (turns : Nat) :
    run t bytes stop ptr (turns + 1) = .running ∨
      run t bytes stop ptr (turns + 1) = .outOfRange := by
  have hsome (vpn : Nat) (hne : t.translate bytes vpn ≠ none) :
      ∃ pte, t.translate bytes vpn = some pte := Option.ne_none_iff_exists'.mp hne
  rw [MeetsHole] at hhole
  split at hhole
  · rename_i hle
    refine .inl (BufferLoop.run_eq_running hlt hstop hle (fun vpn hfirst hlast => ?_) _)
    exact hsome vpn (fun hnone => hhole ⟨vpn, hfirst, hlast, hnone⟩)
  · rename_i hgt
    obtain ⟨pte, hpte⟩ := hsome _ (fun hnone => hhole (.inl hnone))
    have hend : sliceEnd ptr stop = ofUsize stop := by
      rw [sliceEnd]
      omega
    by_cases horder : InOrder ptr stop
    · obtain ⟨slice, hrun⟩ := run_of_inOrder hlt hpte horder turns
      rw [InOrder, hend] at horder
      have hlow := ofUsize_of_lt (ofUsize_lt stop)
      have hlast := hsome _ (fun hnone => hhole (.inr ⟨hnone, horder⟩))
      left
      rw [hrun, hend, BufferLoop.run_eq_running
        (Nat.lt_of_lt_of_le (ofUsize_lt stop) hstop) hstop (by rw [hlow]) ?_ turns,
        push]
      intro vpn hfirst hvpn
      rw [hlow] at hfirst
      rwa [Nat.le_antisymm hvpn hfirst]
    · exact .inr (BufferLoop.run_of_not_inOrder hlt hpte horder turns)

theorem endsInTime_iff_meetsHole (token : Nat) (bytes : Memory) (hlen : 0 < len)
    (hlow : 2 ^ 39 ≤ ptr + len) (hhigh : ptr + len < 2 ^ 64) :
    EndsInTime token bytes ptr len ↔ MeetsHole (PageTable.fromToken token) bytes
      (ofUsize ptr) (ofUsize (ptr + len)) := by
  have hstop : usizeAdd ptr len = ptr + len := Nat.mod_eq_of_lt hhigh
  have hlt : ptr < ptr + len := by omega
  rw [EndsInTime, hstop]
  constructor
  · intro hends
    by_contra hhole
    rcases run_high_of_no_hole hlt hlow hhole (len / 4096 + 1) with hrun | hrun
    · rw [hrun] at hends
      rcases hends with hends | ⟨slices, hends, -⟩ <;> cases hends
    · rw [hrun] at hends
      rcases hends with hends | ⟨slices, hends, -⟩ <;> cases hends
  · intro hhole
    refine .inl (run_high_of_hole hlt hlow ?_ (by omega) hhole)
    rw [ofUsize_eq, ofUsize_eq]
    omega

theorem endsInTime_of_lt (token : Nat) (bytes : Memory) (hend : ptr + len < 2 ^ 39) :
    EndsInTime token bytes ptr len := by
  have hstop : usizeAdd ptr len = ptr + len := Nat.mod_eq_of_lt (by omega)
  rw [EndsInTime, hstop]
  have hturns : ptr < ptr + len →
      (ptr + len + 4095) / 4096 ≤ ptr / 4096 + (len / 4096 + 2) := by omega
  rcases BufferLoop.run_below (PageTable.fromToken token) bytes hend hturns with
    ⟨va, -, -, -, hrun⟩ | ⟨slices, hrun, -⟩
  · exact .inl hrun
  · have hloop : translatedByteBufferLoop (PageTable.fromToken token) bytes (ptr + len) ptr
        (len / 4096 + 2) = some slices := by
      rw [← BufferLoop.toOption_run, hrun, BufferLoop.toOption]
    have hlength := (translatedByteBufferLoop_spec hloop).1
    rw [length_flatMap_addrs, Nat.add_sub_cancel_left] at hlength
    exact .inr ⟨slices, hrun, hlength⟩

theorem endsInTime_of_wraps (token : Nat) (bytes : Memory) (hptr : ptr < 2 ^ 64)
    (hlen : len < 2 ^ 64) (hwraps : 2 ^ 64 ≤ ptr + len) : ¬EndsInTime token bytes ptr len := by
  have hle : usizeAdd ptr len ≤ ptr := by
    rw [usizeAdd]
    omega
  rw [EndsInTime, BufferLoop.run_of_le hle]
  rintro (hends | ⟨slices, hends, hsum⟩)
  · cases hends
  · cases hends
    rw [List.map_nil, List.sum_nil] at hsum
    omega

/-- **When `translated_byte_buffer` ends in time**: exactly for an empty range, for a range
that ends below 2^39, and for a range that does not wrap and in which the loop comes to a
page without an entry. -/
theorem byte_buffer_ends_iff (token : Nat) (bytes : Memory) (ptr len : Nat) (hptr : ptr < 2 ^ 64)
    (hlen : len < 2 ^ 64) :
    EndsInTime token bytes ptr len ↔
      len = 0 ∨ ptr + len < 2 ^ 39 ∨ ptr + len < 2 ^ 64 ∧
        MeetsHole (PageTable.fromToken token) bytes (VirtAddr.ofUsize ptr)
          (VirtAddr.ofUsize (ptr + len)) := by
  rcases Nat.eq_zero_or_pos len with rfl | hpos
  · have hstop : usizeAdd ptr 0 ≤ ptr := Nat.mod_le _ _
    have hends : EndsInTime token bytes ptr 0 := .inr ⟨[], BufferLoop.run_of_le hstop _, rfl⟩
    simp only [hends, true_or]
  · by_cases hlow : ptr + len < 2 ^ 39
    · simp only [endsInTime_of_lt token bytes hlow, hlow, true_or, or_true]
    · by_cases hhigh : ptr + len < 2 ^ 64
      · rw [endsInTime_iff_meetsHole token bytes hpos (Nat.not_lt.mp hlow) hhigh]
        simp only [hlow, hhigh, Nat.ne_of_gt hpos, false_or, true_and]
      · have hwraps := endsInTime_of_wraps token bytes hptr hlen (Nat.not_lt.mp hhigh)
        simp only [hwraps, hlow, hhigh, Nat.ne_of_gt hpos, false_or, false_and]

/-- A buffer of one page and a byte. -/
theorem byte_buffer_ends_iff_two_pages : EndsInTime 0 (fun _ => 0) 0x1000 0x1001 :=
  (byte_buffer_ends_iff 0 (fun _ => 0) 0x1000 0x1001 (by decide) (by decide)).mpr
    (.inr (.inl (by decide)))

deriving instance DecidableEq for BufferLoop

/-- The main thread names its trap context, the page that ends at 2^39, and a range that
wraps: twice the loop does not end, and once nothing is returned for two bytes. -/
theorem byte_buffer_unending : ∃ ms s,
    UserReaches smallLayout (fun _ => some ⟨[], [], 0⟩) ms s ∧
      ¬EndsInTime ms.pageTable.token s.bytes trapContextBase 8 ∧
      ¬EndsInTime ms.pageTable.token s.bytes (2 ^ 39 - 4096) 4096 ∧
      ¬EndsInTime ms.pageTable.token s.bytes (2 ^ 64 - 1) 2 := by
  have hfacts : (mainSpace.map fun r => [(trapContextBase, 8), (2 ^ 39 - 4096, 4096)].map fun p =>
      BufferLoop.run (PageTable.fromToken r.1.pageTable.token) r.2.bytes (usizeAdd p.1 p.2) p.1
        (p.2 / 4096 + 2)) = some [.running, .running] := by decide +kernel
  obtain ⟨⟨ms, s⟩, hspace, hfacts⟩ := Option.map_eq_some_iff.mp hfacts
  simp only [List.map_cons, List.map_nil, List.cons.injEq, and_true] at hfacts
  refine ⟨ms, s, mainSpace_reaches hspace, ?_, ?_,
    endsInTime_of_wraps _ _ (by decide) (by decide) (by decide)⟩
  · rintro (hrun | ⟨slices, hrun, -⟩)
    · cases hrun ▸ hfacts.1
    · cases hrun ▸ hfacts.1
  · rintro (hrun | ⟨slices, hrun, -⟩)
    · cases hrun ▸ hfacts.2
    · cases hrun ▸ hfacts.2

end RCore.Syscall
