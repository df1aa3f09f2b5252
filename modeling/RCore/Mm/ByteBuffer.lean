import RCore.Mm.Translated

/-!
# The loop of `translated_byte_buffer`

The loop keeps the start and the end of its range as `usize` values and takes 39 bits of
both in every iteration.  A range below 2^39 is cut into one slice for each page.  The
end of any other range is out of reach: the start comes to the low bits of the end and
stays there, unless a page on the way has no entry.
-/

namespace RCore.Mm

open Option

open VirtAddr (ofUsize floor ofUsize_lt ofUsize_of_lt)

variable {pte : PageTableEntry} {turns : Nat}

/-- The loop after some iterations. -/
inductive BufferLoop where
  | returned (slices : List Slice)
  /-- `unwrap` of the entry of a page. -/
  | untranslatable
  /-- A slice of a frame that ends before it starts. -/
  | outOfRange
  | running

namespace BufferLoop

/-- What an iteration that has pushed a slice goes on to. -/
def push (slice : Slice) : BufferLoop → BufferLoop
  | returned slices => returned (slice :: slices)
  | untranslatable => untranslatable
  | outOfRange => outOfRange
  | running => running

def toOption : BufferLoop → Option (List Slice)
  | returned slices => some slices
  | _ => none

/-- The loop with at most `turns` iterations. -/
def run (t : PageTable) (bytes : Memory) (stop : Nat) : Nat → Nat → BufferLoop
  | start, 0 => if start < stop then running else returned []
  | start, turns + 1 =>
      if start < stop then
        match t.translate bytes (VirtAddr.floor (VirtAddr.ofUsize start)) with
        | none => untranslatable
        | some _ =>
            match translatedByteBufferTurn t bytes start stop with
            | none => outOfRange
            | some (slice, start) => push slice (run t bytes stop start turns)
      else returned []

variable {t : PageTable} {bytes : Memory} {start stop : Nat}

theorem toOption_push (slice : Slice) (l : BufferLoop) :
    (l.push slice).toOption = l.toOption.map (slice :: ·) := by
  cases l <;> rfl

theorem toOption_run (turns : Nat) : (run t bytes stop start turns).toOption =
    translatedByteBufferLoop t bytes stop start turns := by
  induction turns generalizing start with
  | zero =>
    rw [run, translatedByteBufferLoop]
    split <;> rfl
  | succ turns ih =>
    rw [run, translatedByteBufferLoop]
    by_cases hlt : start < stop
    · rw [if_pos hlt, if_pos hlt]
      cases hpte : t.translate bytes (floor (ofUsize start)) with
      | none => simp only [translatedByteBufferTurn, hpte, toOption, do_none]
      | some pte =>
        cases hturn : translatedByteBufferTurn t bytes start stop with
        | none => rfl
        | some r =>
          simp only [toOption_push, ih, do_some]
          cases translatedByteBufferLoop t bytes stop r.2 turns <;> rfl
    · rw [if_neg hlt, if_neg hlt, toOption]

theorem eq_returned_of_toOption {l : BufferLoop} {slices : List Slice}
    (h : l.toOption = some slices) : l = returned slices := by
  cases l with
  | returned slices' => rw [toOption, Option.some.injEq] at h; rw [h]
  | untranslatable => cases h
  | outOfRange => cases h
  | running => cases h

theorem run_of_le (hle : stop ≤ start) (turns : Nat) :
    run t bytes stop start turns = returned [] :=
  eq_returned_of_toOption ((toOption_run turns).trans (translatedByteBufferLoop_of_le hle turns))

theorem run_of_translate_eq_none (hlt : start < stop)
    (hpte : t.translate bytes (ofUsize start / 4096) = none) (turns : Nat) :
    run t bytes stop start (turns + 1) = untranslatable := by
  rw [run, if_pos hlt, floor, pageFloor_eq, hpte]

/-- The end of the slice of an iteration, where the next one starts. -/
def sliceEnd (start stop : Nat) : Nat :=
  min (4096 * (VirtAddr.ofUsize start / 4096 + 1)) (VirtAddr.ofUsize stop)

/-- The slice of an iteration does not end before it starts. -/
def InOrder (start stop : Nat) : Prop :=
  sliceEnd start stop % 4096 = 0 ∨
    VirtAddr.ofUsize start % 4096 ≤ sliceEnd start stop % 4096

theorem turn_eq (hpte : t.translate bytes (ofUsize start / 4096) = some pte) :
    translatedByteBufferTurn t bytes start stop =
      (if sliceEnd start stop % 4096 = 0 then
          frameSlice pte.ppn (ofUsize start % 4096) pageSize
        else frameSlice pte.ppn (ofUsize start % 4096) (sliceEnd start stop % 4096)).map
        fun slice => (slice, sliceEnd start stop) := by
  have hvpn : ofUsize start / 4096 + 1 < 2 ^ 52 := by
    have hstart := ofUsize_lt start
    omega
  simp only [translatedByteBufferTurn, floor, pageFloor_eq, hpte, do_some,
    VirtPageNum.toVirtAddr_eq hvpn, pageOffset_eq, sliceEnd]
  congr

theorem frameSlice_eq_none {ppn first last : Nat} (h : ¬ first ≤ last) :
    frameSlice ppn first last = none := by
  rw [frameSlice, if_neg (fun hle => h hle.1)]

theorem exists_frameSlice (ppn : Nat) {first last : Nat} (h : first ≤ last)
    (hlast : last ≤ 4096) : ∃ slice, frameSlice ppn first last = some slice :=
  ⟨_, if_pos ⟨h, hlast⟩⟩

theorem run_of_inOrder (hlt : start < stop)
    (hpte : t.translate bytes (ofUsize start / 4096) = some pte)
    (horder : InOrder start stop) (turns : Nat) : ∃ slice, run t bytes stop start (turns + 1) =
      push slice (run t bytes stop (sliceEnd start stop) turns) := by
  have hoff : ofUsize start % 4096 < 4096 := Nat.mod_lt _ (by decide)
  obtain ⟨slice, hslice⟩ : ∃ slice, translatedByteBufferTurn t bytes start stop =
      some (slice, sliceEnd start stop) := by
    rw [turn_eq hpte]
    by_cases hend : sliceEnd start stop % 4096 = 0
    · obtain ⟨slice, hslice⟩ := exists_frameSlice pte.ppn hoff.le (Nat.le_refl 4096)
      exact ⟨slice, by rw [if_pos hend, pageSize, hslice, map_some]⟩
    · have hle := horder.resolve_left hend
      obtain ⟨slice, hslice⟩ := exists_frameSlice pte.ppn hle (Nat.mod_lt _ (by decide)).le
      exact ⟨slice, by rw [if_neg hend, hslice, map_some]⟩
  refine ⟨slice, ?_⟩
  rw [run, if_pos hlt, floor, pageFloor_eq, hpte]
  simp only [hslice]

theorem run_of_not_inOrder (hlt : start < stop)
    (hpte : t.translate bytes (ofUsize start / 4096) = some pte)
    (horder : ¬ InOrder start stop) (turns : Nat) :
    run t bytes stop start (turns + 1) = outOfRange := by
  rw [InOrder, not_or] at horder
  have hnone : translatedByteBufferTurn t bytes start stop = none := by
    rw [turn_eq hpte, if_neg horder.1, frameSlice_eq_none horder.2, map_none]
  rw [run, if_pos hlt, floor, pageFloor_eq, hpte]
  simp only [hnone]

/-! ## Ranges below 2^39 -/

variable (t bytes) in
/-- One slice for each page, up to the first page without an entry. -/
theorem run_below (hstop : stop < 2 ^ 39)
    (hturns : start < stop → (stop + 4095) / 4096 ≤ start / 4096 + turns) :
    (∃ va, start ≤ va ∧ va < stop ∧ t.translate bytes (va / 4096) = none ∧
        run t bytes stop start turns = untranslatable) ∨
      ∃ slices, run t bytes stop start turns = returned slices ∧
        ∀ b ∈ slices, 0 < b.len ∧ b.addr % 4096 + b.len ≤ 4096 := by
  induction turns generalizing start with
  | zero => exact .inr ⟨[], run_of_le (by omega) 0, fun b hb => nomatch hb⟩
  | succ turns ih =>
    by_cases hlt : start < stop
    · have hstart : ofUsize start = start := ofUsize_of_lt (by omega)
      cases hpte : t.translate bytes (start / 4096) with
      | none =>
        exact .inl ⟨start, Nat.le_refl _, hlt, hpte,
          run_of_translate_eq_none hlt (by rw [hstart, hpte]) turns⟩
      | some pte =>
        obtain ⟨next, hnext⟩ : ∃ next, next = min (4096 * (start / 4096 + 1)) stop := ⟨_, rfl⟩
        have hrun : run t bytes stop start (turns + 1) =
            push ⟨4096 * pte.ppn + start % 4096, next - start⟩
              (run t bytes stop next turns) := by
          rw [run, if_pos hlt, floor, pageFloor_eq, hstart, hpte,
            translatedByteBufferTurn_eq hlt hstop, hpte, hnext]
          rfl
        have hturns' : next < stop → (stop + 4095) / 4096 ≤ next / 4096 + turns := by omega
        rw [hrun]
        rcases ih hturns' with
          ⟨va, hle, hva, hnone, hrest⟩ | ⟨slices, hrest, hslices⟩
        · exact .inl ⟨va, by omega, hva, hnone, by rw [hrest, push]⟩
        · refine .inr ⟨_, by rw [hrest, push], fun b hb => ?_⟩
          rcases List.mem_cons.mp hb with rfl | hb
          · simp only
            omega
          · exact hslices b hb
    · exact .inr ⟨[], run_of_le (by omega) _, fun b hb => nomatch hb⟩

/-! ## Ranges that end at 2^39 or above -/

theorem sliceEnd_lt (start stop : Nat) : sliceEnd start stop < 2 ^ 39 :=
  Nat.lt_of_le_of_lt (Nat.min_le_right _ _) (ofUsize_lt stop)

theorem inOrder_of_le (hle : ofUsize start ≤ ofUsize stop) :
    InOrder start stop := by
  rw [InOrder, sliceEnd]
  omega

theorem run_eq_running (hlt : start < stop) (hstop : 2 ^ 39 ≤ stop)
    (hle : ofUsize start ≤ ofUsize stop)
    (hpages : ∀ vpn, ofUsize start / 4096 ≤ vpn → vpn ≤ ofUsize stop / 4096 →
      ∃ pte, t.translate bytes vpn = some pte) (turns : Nat) :
    run t bytes stop start turns = running := by
  induction turns generalizing start with
  | zero => rw [run, if_pos hlt]
  | succ turns ih =>
    obtain ⟨pte, hpte⟩ := hpages _ (Nat.le_refl _) (by omega)
    obtain ⟨slice, hrun⟩ := run_of_inOrder hlt hpte (inOrder_of_le hle) turns
    have hend := sliceEnd_lt start stop
    have hnext : ofUsize (sliceEnd start stop) = sliceEnd start stop :=
      ofUsize_of_lt hend
    rw [hrun, ih (by omega) (by rw [hnext]; exact Nat.min_le_right _ _) ?_, push]
    intro vpn hfirst hlast
    rw [hnext, sliceEnd] at hfirst
    exact hpages vpn (by omega) hlast

theorem run_eq_untranslatable {vpn : Nat} (hlt : start < stop) (hstop : 2 ^ 39 ≤ stop)
    (hfirst : ofUsize start / 4096 ≤ vpn) (hlast : vpn ≤ ofUsize stop / 4096)
    (hle : ofUsize start ≤ ofUsize stop) (hpte : t.translate bytes vpn = none)
    (hturns : vpn < ofUsize start / 4096 + turns) :
    run t bytes stop start turns = untranslatable := by
  induction turns generalizing start with
  | zero => omega
  | succ turns ih =>
    cases hpage : t.translate bytes (ofUsize start / 4096) with
    | none => exact run_of_translate_eq_none hlt hpage turns
    | some pte =>
      have hne : ofUsize start / 4096 ≠ vpn := by
        rintro rfl
        rw [hpage] at hpte
        cases hpte
      obtain ⟨slice, hrun⟩ := run_of_inOrder hlt hpage (inOrder_of_le hle) turns
      have hend := sliceEnd_lt start stop
      have hnext : ofUsize (sliceEnd start stop) =
          4096 * (ofUsize start / 4096 + 1) := by
        rw [ofUsize_of_lt hend, sliceEnd]
        omega
      rw [hrun, ih (by omega) (by omega) (by omega) (by omega), push]

end BufferLoop

theorem translatedByteBufferLoop_mono {t : PageTable} {bytes : Memory} {start stop : Nat}
    {slices : List Slice} (h : translatedByteBufferLoop t bytes stop start turns = some slices)
    {turns' : Nat} (hle : turns ≤ turns') :
    translatedByteBufferLoop t bytes stop start turns' = some slices := by
  induction turns generalizing start slices turns' with
  | zero =>
    rw [translatedByteBufferLoop, ite_none_left_eq_some] at h
    cases h.2
    exact translatedByteBufferLoop_of_le (Nat.not_lt.mp h.1) turns'
  | succ turns ih =>
    cases turns' with
    | zero => omega
    | succ turns' =>
      rw [translatedByteBufferLoop] at h ⊢
      by_cases hlt : start < stop
      · rw [if_pos hlt, do_eq_some_iff] at h
        obtain ⟨r, hturn, h⟩ := h
        rw [do_eq_some_iff] at h
        obtain ⟨rest, hrest, h⟩ := h
        simp only [if_pos hlt, hturn, do_some, ih hrest (Nat.le_of_succ_le_succ hle), h]
      · rwa [if_neg hlt] at h ⊢

end RCore.Mm
