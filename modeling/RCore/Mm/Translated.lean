import RCore.Mm.PageTable
import RCore.Mm.UserBuffer

/-!
# Access to user memory

`translated_byte_buffer`, `translated_str`, `translated_ref` and `translated_refmut` look
up addresses of a user space for the kernel.  They are given the token of the space.
`none` is a panic; the loops also take the number of turns they may make, since they
need not end.
-/

namespace RCore.Mm

open List Option PhysPageNum
open Slice (addrs mk)

namespace PageTable

def token (self : PageTable) : Nat := usizeShl 8 60 ||| self.rootPpn

/-- A table without frames of its own. -/
def fromToken (satp : Nat) : PageTable where
  rootPpn := PhysPageNum.ofUsize (satp &&& ((1 <<< 44) - 1))
  frames := []

def translateVa (self : PageTable) (bytes : Memory) (va : Nat) : Option Nat :=
  (self.findPte bytes (VirtAddr.floor va)).map fun addr =>
    let pte : PageTableEntry := ⟨bytes.readUsize addr⟩
    PhysAddr.ofUsize (usizeAdd (PhysPageNum.toPhysAddr pte.ppn) (pageOffset va))

end PageTable

/-- `&bytes[start..stop]` of the bytes of a frame. -/
def frameSlice (ppn start stop : Nat) : Option Slice :=
  if start ≤ stop ∧ stop ≤ pageSize then
    some ⟨PhysPageNum.toPhysAddr ppn + start, stop - start⟩
  else none

/-- A turn of the loop of `translated_byte_buffer`: a slice, and where the next one
starts. -/
def translatedByteBufferTurn (t : PageTable) (bytes : Memory) (start stop : Nat) :
    Option (Slice × Nat) := do
  let startVa := VirtAddr.ofUsize start
  let vpn := VirtAddr.floor startVa
  let pte ← t.translate bytes vpn
  let endVa := min (VirtPageNum.toVirtAddr (vpn + 1)) (VirtAddr.ofUsize stop)
  let slice := if pageOffset endVa = 0 then frameSlice pte.ppn (pageOffset startVa) pageSize
    else frameSlice pte.ppn (pageOffset startVa) (pageOffset endVa)
  slice.map fun slice => (slice, endVa)

def translatedByteBufferLoop (t : PageTable) (bytes : Memory) (stop : Nat) :
    Nat → Nat → Option (List Slice)
  | start, 0 => if start < stop then none else some []
  | start, turns + 1 =>
      if start < stop then do
        let (slice, start) ← translatedByteBufferTurn t bytes start stop
        let rest ← translatedByteBufferLoop t bytes stop start turns
        some (slice :: rest)
      else some []

def translatedByteBuffer (token : Nat) (bytes : Memory) (ptr len turns : Nat) :
    Option (List Slice) :=
  translatedByteBufferLoop (PageTable.fromToken token) bytes (usizeAdd ptr len) ptr turns

/-- `get_ref` and `get_mut`: there is no reference to address 0. -/
def getRef (pa : Nat) : Option Nat :=
  if pa = 0 then none else some pa

/-- The loop of `translated_str`; `read` are the addresses it has read. -/
def translatedStrLoop (t : PageTable) (bytes : Memory) :
    Nat → String → List Nat → Nat → Option (String × List Nat)
  | _, _, _, 0 => none
  | va, string, read, turns + 1 => do
      let pa ← t.translateVa bytes (VirtAddr.ofUsize va)
      let pa ← getRef pa
      let ch := bytes pa
      if ch = 0 then some (string, read ++ [pa])
      else
        translatedStrLoop t bytes (usizeAdd va 1) (string.push (Char.ofNat ch.toNat))
          (read ++ [pa]) turns

/-- The string, and the addresses read for it. -/
def translatedStr (token : Nat) (bytes : Memory) (ptr turns : Nat) : Option (String × List Nat) :=
  translatedStrLoop (PageTable.fromToken token) bytes ptr "" [] turns

/-- The address of the value that a reference refers to. -/
def translatedValue (token : Nat) (bytes : Memory) (ptr : Nat) : Option Nat := do
  let pa ← (PageTable.fromToken token).translateVa bytes (VirtAddr.ofUsize ptr)
  getRef pa

def translatedRef (token : Nat) (bytes : Memory) (ptr : Nat) : Option Nat :=
  translatedValue token bytes ptr

def translatedRefmut (token : Nat) (bytes : Memory) (ptr : Nat) : Option Nat :=
  translatedValue token bytes ptr

/-! ## Addresses -/

theorem VirtAddr.ofUsize_usizeAdd (v w n : Nat) :
    VirtAddr.ofUsize (usizeAdd v w + n) = VirtAddr.ofUsize (v + w + n) := by
  rw [ofUsize_eq, ofUsize_eq, usizeAdd]
  omega

namespace PageTable

variable {t : PageTable} {bytes : Memory}

theorem rootPpn_fromToken (h : t.rootPpn < 2 ^ 44) : (fromToken t.token).rootPpn = t.rootPpn := by
  have hmask : t.token &&& ((1 <<< 44) - 1) = t.token % 2 ^ 44 := Nat.and_two_pow_sub_one_eq_mod _ 44
  have htoken : t.token = 2 ^ 63 + t.rootPpn := by
    have hor := Nat.two_pow_add_eq_or_of_lt (i := 63) (b := t.rootPpn) (by omega) 1
    rw [Nat.mul_one] at hor
    rw [hor]
    rfl
  change ofUsize (t.token &&& ((1 <<< 44) - 1)) = t.rootPpn
  rw [hmask, ofUsize_eq, htoken]
  omega

theorem translate_fromToken (h : t.rootPpn < 2 ^ 44) (vpn : Nat) :
    (fromToken t.token).translate bytes vpn = t.translate bytes vpn := by
  simp only [translate, findPte, rootPpn_fromToken h]

theorem translateVa_eq (va : Nat) : t.translateVa bytes va =
    (t.translate bytes (va / 4096)).map fun pte => 4096 * pte.ppn + va % 4096 := by
  rw [translateVa, translate, Option.map_map, VirtAddr.floor, pageFloor_eq]
  congr 1
  funext addr
  have hlt : (PageTableEntry.mk (bytes.readUsize addr)).ppn < 2 ^ 44 := ofUsize_lt _
  have hoff : va % 4096 < 4096 := Nat.mod_lt _ (by decide)
  simp only [Function.comp_apply, toPhysAddr_eq hlt, pageOffset_eq, usizeAdd,
    PhysAddr.ofUsize_eq]
  omega

end PageTable

/-! ## What the loops return -/

/-- The addresses stand for consecutive virtual addresses. -/
def StandFor (t : PageTable) (bytes : Memory) (va : Nat) (addrs : List Nat) : Prop :=
  ∀ i (h : i < addrs.length), t.translateVa bytes (VirtAddr.ofUsize (va + i)) = some addrs[i]

variable {t : PageTable} {bytes : Memory} {start stop : Nat}

theorem standFor_nil (va : Nat) : StandFor t bytes va [] := by
  intro i h
  simp at h

theorem StandFor.append {va : Nat} {addrs addrs' : List Nat} (h : StandFor t bytes va addrs)
    (h' : StandFor t bytes (va + addrs.length) addrs') : StandFor t bytes va (addrs ++ addrs') := by
  intro i hi
  by_cases hlt : i < addrs.length
  · rw [getElem_append_left hlt]
    exact h i hlt
  · have hrest := h' (i - addrs.length) (by rw [length_append] at hi; omega)
    rw [getElem_append_right (by omega)]
    rwa [(by omega : va + addrs.length + (i - addrs.length) = va + i)] at hrest

theorem standFor_slice {pte : PageTableEntry} {va n : Nat} (hva : va < 2 ^ 39)
    (hpte : t.translate bytes (va / 4096) = some pte) (hn : va % 4096 + n ≤ 4096) :
    StandFor t bytes va (addrs ⟨4096 * pte.ppn + va % 4096, n⟩) := by
  intro i hi
  simp only [addrs, length_map, length_range] at hi
  have hpage : (va + i) / 4096 = va / 4096 := by omega
  have hoff : (va + i) % 4096 = va % 4096 + i := by omega
  rw [VirtAddr.ofUsize_of_lt (by omega), PageTable.translateVa_eq, hpage, hpte, hoff]
  simp only [addrs, getElem_map, getElem_range, map_some]
  congr 1
  omega

theorem translatedByteBufferTurn_eq (hlt : start < stop) (hstop : stop < 2 ^ 39) :
    translatedByteBufferTurn t bytes start stop =
      (t.translate bytes (start / 4096)).map fun pte =>
        (⟨4096 * pte.ppn + start % 4096, min (4096 * (start / 4096 + 1)) stop - start⟩,
          min (4096 * (start / 4096 + 1)) stop) := by
  have hvpn : start / 4096 + 1 < 2 ^ 52 := by omega
  rw [translatedByteBufferTurn, VirtAddr.ofUsize_of_lt (by omega), VirtAddr.ofUsize_of_lt hstop]
  simp only [VirtAddr.floor, pageFloor_eq, VirtPageNum.toVirtAddr_eq hvpn, pageOffset_eq]
  cases hpte : t.translate bytes (start / 4096) with
  | none => rfl
  | some pte =>
    have hppn : pte.ppn < 2 ^ 44 := ofUsize_lt _
    simp only [do_some, map_some, frameSlice, toPhysAddr_eq hppn, pageSize]
    split
    · rw [if_pos (by omega)]
      simp only [map_some, Option.some.injEq, Prod.mk.injEq, and_true, mk.injEq, true_and]
      omega
    · rw [if_pos (by omega)]
      simp only [map_some, Option.some.injEq, Prod.mk.injEq, and_true, mk.injEq, true_and]
      omega

theorem translatedByteBufferLoop_eq_none (hlt : start < stop) (hstop : 2 ^ 39 ≤ stop)
    (turns : Nat) : translatedByteBufferLoop t bytes stop start turns = none := by
  induction turns generalizing start with
  | zero => rw [translatedByteBufferLoop, if_pos hlt]
  | succ turns ih =>
    rw [translatedByteBufferLoop, if_pos hlt]
    cases hturn : translatedByteBufferTurn t bytes start stop with
    | none => rfl
    | some r =>
      have hnext : r.2 < stop := by
        simp only [translatedByteBufferTurn, do_eq_some_iff, map_eq_some_iff] at hturn
        obtain ⟨_, -, _, -, rfl⟩ := hturn
        have hend := VirtAddr.ofUsize_lt stop
        exact Nat.lt_of_le_of_lt (Nat.min_le_right _ _) (Nat.lt_of_lt_of_le hend hstop)
      simp only [do_some, ih hnext, do_none]

theorem translatedByteBufferLoop_of_le (hle : stop ≤ start) (turns : Nat) :
    translatedByteBufferLoop t bytes stop start turns = some [] := by
  cases turns with
  | zero => rw [translatedByteBufferLoop, if_neg (Nat.not_lt.mpr hle)]
  | succ turns => rw [translatedByteBufferLoop, if_neg (Nat.not_lt.mpr hle)]

/-- The bytes of the slices stand for the addresses of the range. -/
theorem translatedByteBufferLoop_spec {turns : Nat} {slices : List Slice}
    (hloop : translatedByteBufferLoop t bytes stop start turns = some slices) :
    (slices.flatMap addrs).length = stop - start ∧
      StandFor t bytes start (slices.flatMap addrs) := by
  induction turns generalizing start slices with
  | zero =>
    rw [translatedByteBufferLoop, ite_none_left_eq_some] at hloop
    cases hloop.2
    exact ⟨by simp only [flatMap_nil, length_nil]; omega, standFor_nil _⟩
  | succ turns ih =>
    by_cases hlt : start < stop
    · have hstop : stop < 2 ^ 39 := by
        by_contra hlarge
        rw [translatedByteBufferLoop_eq_none hlt (by omega)] at hloop
        cases hloop
      rw [translatedByteBufferLoop, if_pos hlt, translatedByteBufferTurn_eq hlt hstop] at hloop
      simp only [do_eq_some_iff, map_eq_some_iff, Option.some.injEq] at hloop
      obtain ⟨_, ⟨pte, hpte, rfl⟩, rest, hrest, rfl⟩ := hloop
      simp only at hrest
      generalize hnext : min (4096 * (start / 4096 + 1)) stop = next at hrest
      obtain ⟨hcount, htail⟩ := ih hrest
      have hlength : (addrs ⟨4096 * pte.ppn + start % 4096, next - start⟩).length =
          next - start := by simp [addrs]
      have hslice : StandFor t bytes start
          (addrs ⟨4096 * pte.ppn + start % 4096, next - start⟩) :=
        standFor_slice (by omega) hpte (by omega)
      rw [flatMap_cons]
      refine ⟨?_, hslice.append ?_⟩
      · rw [length_append, hlength, hcount]
        omega
      · rwa [hlength, (by omega : start + (next - start) = next)]
    · rw [translatedByteBufferLoop_of_le (by omega)] at hloop
      cases hloop
      exact ⟨by simp only [flatMap_nil, length_nil]; omega, standFor_nil _⟩

theorem translatedByteBufferLoop_returns {turns : Nat} (hstop : stop < 2 ^ 39)
    (hpages : ∀ va, start ≤ va → va < stop → ∃ pte, t.translate bytes (va / 4096) = some pte)
    (hturns : stop - start ≤ turns) :
    ∃ slices, translatedByteBufferLoop t bytes stop start turns = some slices := by
  induction turns generalizing start with
  | zero => exact ⟨[], translatedByteBufferLoop_of_le (by omega) 0⟩
  | succ turns ih =>
    by_cases hlt : start < stop
    · obtain ⟨pte, hpte⟩ := hpages start (Nat.le_refl _) hlt
      obtain ⟨rest, hrest⟩ : ∃ rest, translatedByteBufferLoop t bytes stop
          (min (4096 * (start / 4096 + 1)) stop) turns = some rest :=
        ih (fun va hle hva => hpages va (by omega) hva) (by omega)
      rw [translatedByteBufferLoop, if_pos hlt, translatedByteBufferTurn_eq hlt hstop, hpte]
      simp only [map_some, do_some, hrest]
      exact ⟨_, rfl⟩
    · exact ⟨[], translatedByteBufferLoop_of_le (by omega) _⟩

/-- `translated_str` reads the bytes up to the first zero. -/
theorem translatedStrLoop_spec {va turns : Nat} {string string' : String} {read read' : List Nat}
    (hloop : translatedStrLoop t bytes va string read turns = some (string', read')) :
    ∃ addrs, read' = read ++ addrs ∧ StandFor t bytes va addrs ∧
      ∀ i, i < addrs.length ↔
        ∀ j < i, (t.translateVa bytes (VirtAddr.ofUsize (va + j))).map bytes ≠ some 0 := by
  induction turns generalizing va string read with
  | zero => cases hloop
  | succ turns ih =>
    simp only [translatedStrLoop, getRef, do_eq_some_iff, ite_none_left_eq_some,
      Option.some.injEq] at hloop
    obtain ⟨pa, hpa, _, ⟨-, rfl⟩, hloop⟩ := hloop
    have hfirst : StandFor t bytes va [pa] := by
      intro i hi
      obtain rfl : i = 0 := by simpa using hi
      simpa using hpa
    by_cases hzero : bytes pa = 0
    · rw [if_pos hzero, Option.some.injEq, Prod.mk.injEq] at hloop
      obtain ⟨-, rfl⟩ := hloop
      refine ⟨[pa], rfl, hfirst, fun i => ⟨fun hi j hj => ?_, fun hall => ?_⟩⟩
      · simp only [length_singleton] at hi
        omega
      · by_contra hi
        rw [length_singleton] at hi
        refine hall 0 (by omega) ?_
        rw [Nat.add_zero, hpa, map_some, hzero]
    · rw [if_neg hzero] at hloop
      obtain ⟨addrs, rfl, hstand, hlength⟩ := ih hloop
      have hrest : StandFor t bytes (va + 1) addrs := by
        intro i hi
        rw [← VirtAddr.ofUsize_usizeAdd]
        exact hstand i hi
      refine ⟨pa :: addrs, by simp, hfirst.append hrest, fun i => ?_⟩
      cases i with
      | zero => simp
      | succ i =>
        rw [length_cons, Nat.succ_lt_succ_iff, hlength i]
        simp only [VirtAddr.ofUsize_usizeAdd]
        constructor
        · intro hall j hj
          cases j with
          | zero =>
            rw [Nat.add_zero, hpa, map_some]
            exact fun heq => hzero (Option.some.inj heq)
          | succ j =>
            rw [Nat.add_comm j, ← Nat.add_assoc]
            exact hall j (Nat.lt_of_succ_lt_succ hj)
        · intro hall j hj
          rw [Nat.add_assoc, Nat.add_comm 1]
          exact hall (j + 1) (Nat.succ_lt_succ hj)

theorem translateVa_of_translatedValue {token ptr pa : Nat}
    (h : translatedValue token bytes ptr = some pa) :
    (PageTable.fromToken token).translateVa bytes (VirtAddr.ofUsize ptr) = some pa := by
  simp only [translatedValue, getRef, do_eq_some_iff, ite_none_left_eq_some, Option.some.injEq] at h
  obtain ⟨_, hpa, -, rfl⟩ := h
  exact hpa

end RCore.Mm
