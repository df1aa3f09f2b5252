import RCore.Syscall.UserStrings
import RCore.Fs.FdTable

/-!
# Writing to the console

`sys_write` hands the slices of the caller's buffer to the file.  `Stdout` decodes each slice on
its own, and a slice ends where a page does, so that a character in two pages is never decoded.
-/

namespace RCore.Syscall

open RCore.Mm RCore.Fs RCore.Lib.Utf8 List Option Slice

/-! ## The model -/

/-- What a write reads and changes: the memory, and what has been passed to
`console_putchar`. -/
structure Machine where
  bytes : Memory
  console : List Nat

/-- `print!` of a string. -/
def Machine.print (m : Machine) (chars : List Char) : Machine :=
  { m with console := m.console ++ chars.map Char.toNat }

/-- The methods of a file that `sys_write` calls; `.error` is a panic. -/
structure File where
  writable : Bool
  write : UserBuffer → Machine → Except Machine (Nat × Machine)

/-- The loop of `Stdout::write`. -/
def Stdout.writeLoop : List Slice → Machine → Except Machine Machine
  | [], m => .ok m
  | buffer :: buffers, m =>
      match decode (buffer.addrs.map m.bytes) with
      | none => .error m  -- `unwrap`
      | some chars => writeLoop buffers (m.print chars)

def Stdout.write (userBuf : UserBuffer) (m : Machine) : Except Machine (Nat × Machine) := do
  let m ← writeLoop userBuf.buffers m
  return (userBuf.len, m)

def stdout : File where
  writable := true
  write := Stdout.write

def stdin : File where
  writable := false
  write := fun _ m => .error m

/-- `none` if the loop of `translated_byte_buffer` has not ended, or finds no entry. -/
def sysWrite (fdTable : FdTable File) (token fd buf len : Nat) (m : Machine) (turns : Nat) :
    Option (Except Machine (Int × Machine)) :=
  match fdTable[fd]? with
  | none => some (.ok (-1, m))
  | some none => some (.ok (-1, m))
  | some (some file) =>
      if !file.writable then some (.ok (-1, m))
      else
        (translatedByteBuffer token m.bytes buf len turns).map fun slices =>
          (file.write ⟨slices⟩ m).map fun (n, m) => (n, m)

/-! ## The loop over the slices -/

namespace Machine

variable (m : Machine) (chars : List Char)

@[simp] theorem print_nil : m.print [] = m := by
  rw [print, map_nil, append_nil]

theorem print_append (part rest : List Char) :
    m.print (part ++ rest) = (m.print part).print rest := by
  simp [print]

end Machine

section Slices

variable {t : PageTable} {bytes : Memory} {va start stop turns : Nat} {data : List UInt8}

/-- The bytes from an address on. -/
def HoldsData (t : PageTable) (bytes : Memory) (va : Nat) (data : List UInt8) : Prop :=
  ∀ i (h : i < data.length),
    (t.translateVa bytes (VirtAddr.ofUsize (va + i))).map bytes = some data[i]

theorem HoldsData.drop (h : HoldsData t bytes va data) (n : Nat) :
    HoldsData t bytes (va + n) (data.drop n) := by
  intro i hi
  rw [length_drop] at hi
  rw [getElem_drop, Nat.add_assoc]
  exact h (n + i) (by omega)

theorem map_eq_take_of_standFor {addrs : List Nat} (haddrs : StandFor t bytes va addrs)
    (h : HoldsData t bytes va data) (hle : addrs.length ≤ data.length) :
    addrs.map bytes = data.take addrs.length := by
  apply ext_getElem
  · rw [length_map, length_take, Nat.min_eq_left hle]
  · intro i hi hi'
    rw [length_map] at hi
    have hbyte := h i (by omega)
    rw [haddrs i hi, map_some, Option.some.injEq] at hbyte
    rw [getElem_map, getElem_take, hbyte]

variable {chars : List Char}

theorem eq_nil_of_length_encode (h : (encode chars).length = 0) : chars = [] := by
  have hdecode := decode_encode chars
  rw [length_eq_zero_iff.mp h] at hdecode
  exact (Option.some.inj ((decode_encode []).symm.trans hdecode)).symm

theorem boundary_zero (chars : List Char) : Boundary chars 0 :=
  ⟨0, by rw [take_zero, encode_nil, length_nil]⟩

/-- Every place where a page begins is a boundary of the characters. -/
def PagesAtBoundaries (start : Nat) (chars : List Char) : Prop :=
  ∀ i < (encode chars).length, (start + i) % 4096 = 0 → Boundary chars i

theorem pagesAtBoundaries_append {part rest : List Char} {n : Nat}
    (hn : (encode part).length = n) (hpage : start % 4096 + n ≤ 4096) :
    PagesAtBoundaries start (part ++ rest) ↔ PagesAtBoundaries (start + n) rest := by
  constructor
  · intro h i hi hstart
    rw [← @boundary_append part, hn]
    apply h
    · rw [encode_append, length_append]
      omega
    · omega
  · intro h i hi hstart
    rw [encode_append, length_append] at hi
    by_cases hlt : i < n
    · obtain rfl : i = 0 := by omega
      exact boundary_zero _
    · obtain ⟨j, rfl⟩ : ∃ j, i = n + j := ⟨i - n, by omega⟩
      rw [← hn, boundary_append]
      exact h j (by omega) (by omega)

theorem PagesAtBoundaries.decode_take_ne_none {n : Nat} (h : PagesAtBoundaries start chars)
    (hle : n ≤ (encode chars).length) (hend : n = (encode chars).length ∨ (start + n) % 4096 = 0) :
    decode ((encode chars).take n) ≠ none := by
  refine (decode_ne_none_iff (take_append_drop _ _).symm).mpr ?_
  rw [length_take, Nat.min_eq_left hle]
  by_cases hlast : n = (encode chars).length
  · exact ⟨chars.length, by rw [take_length, hlast]⟩
  · exact h n (by omega) (hend.resolve_left hlast)

theorem map_firstSlice {m : Machine} {next : Nat} {pte : PageTableEntry}
    (hpte : t.translate m.bytes (start / 4096) = some pte) (hstop : stop < 2 ^ 39)
    (hnext : next ≤ stop) (hpage : next ≤ 4096 * (start / 4096 + 1)) (hlt : start < next)
    (hlength : data.length = stop - start) (hdata : HoldsData t m.bytes start data) :
    (addrs ⟨4096 * pte.ppn + start % 4096, next - start⟩).map m.bytes =
      data.take (next - start) := by
  have haddrs : (addrs ⟨4096 * pte.ppn + start % 4096, next - start⟩).length =
      next - start := by simp [addrs]
  rw [map_eq_take_of_standFor (standFor_slice (by omega) hpte (by omega)) hdata
    (by rw [haddrs]; omega), haddrs]

/-- The string is printed exactly if no character is in two pages. -/
theorem Stdout.writeLoop_iff {slices : List Slice} {m : Machine}
    (hloop : translatedByteBufferLoop t m.bytes stop start turns = some slices)
    (hlength : (encode chars).length = stop - start)
    (hdata : HoldsData t m.bytes start (encode chars)) :
    writeLoop slices m = .ok (m.print chars) ↔ PagesAtBoundaries start chars := by
  induction turns generalizing start slices chars m with
  | zero =>
    rw [translatedByteBufferLoop, ite_none_left_eq_some] at hloop
    cases hloop.2
    obtain rfl : chars = [] := eq_nil_of_length_encode (by omega)
    simp [writeLoop, PagesAtBoundaries]
  | succ turns ih =>
    by_cases hlt : start < stop
    · have hstop : stop < 2 ^ 39 := by
        by_contra hlarge
        rw [translatedByteBufferLoop_eq_none hlt (by omega)] at hloop
        cases hloop
      rw [translatedByteBufferLoop, if_pos hlt, translatedByteBufferTurn_eq hlt hstop] at hloop
      simp only [do_eq_some_iff, map_eq_some_iff, Option.some.injEq] at hloop
      obtain ⟨_, ⟨pte, hpte, rfl⟩, buffers, hrest, rfl⟩ := hloop
      simp only at hrest
      generalize hnext : min (4096 * (start / 4096 + 1)) stop = next at hrest
      rw [writeLoop, map_firstSlice hpte hstop (by omega) (by omega) (by omega) hlength hdata]
      cases hdecode : decode ((encode chars).take (next - start)) with
      | none =>
        simp only [reduceCtorEq, false_iff]
        intro hpages
        exact hpages.decode_take_ne_none (by omega) (by omega) hdecode
      | some part =>
        have hpart := decode_eq_some.mp hdecode
        have htake : (encode part).length = next - start := by
          rw [← hpart, length_take]
          omega
        obtain ⟨rest, rfl, hdrop⟩ := exists_rest (hpart ▸ (take_append_drop _ _).symm)
        have hdata' : HoldsData t (m.print part).bytes next (encode rest) := by
          have hbehind := hdata.drop (next - start)
          rwa [hdrop, (by omega : start + (next - start) = next)] at hbehind
        rw [encode_append, length_append] at hlength
        change writeLoop buffers (m.print part) = _ ↔ _
        rw [Machine.print_append, ih (m := m.print part) hrest (by omega) hdata',
          pagesAtBoundaries_append htake (by omega),
          (by omega : start + (next - start) = next)]
    · rw [translatedByteBufferLoop_of_le (by omega)] at hloop
      cases hloop
      obtain rfl : chars = [] := eq_nil_of_length_encode (by omega)
      simp [writeLoop, PagesAtBoundaries]

theorem sysWrite_stdout {fdTable : FdTable File} {token fd ptr len : Nat} {m : Machine}
    (hfd : fdTable[fd]? = some (some stdout)) {r : Except Machine (Int × Machine)} :
    sysWrite fdTable token fd ptr len m turns = some r ↔ ∃ slices,
      translatedByteBuffer token m.bytes ptr len turns = some slices ∧
        (Stdout.writeLoop slices m).map (fun m => (((UserBuffer.mk slices).len : Int), m)) = r := by
  simp only [sysWrite, hfd, stdout, Bool.not_true, Bool.false_eq_true, if_false,
    map_eq_some_iff, Stdout.write]
  refine exists_congr fun slices => and_congr_right fun _ => ?_
  cases Stdout.writeLoop slices m <;> rfl

end Slices

/-- **When a string is printed.**  A string that a program writes to the console is printed as it
is, and its length is returned, exactly if none of its characters is in two pages and, unless it
is empty, it ends below address 2^39: where the end is 2^39, `translated_byte_buffer` never
returns. -/
theorem stdout_write_exact_iff (fdTable : FdTable File) (token fd ptr : Nat) (m : Machine)
    (chars : List Char) (hfd : fdTable[fd]? = some (some stdout))
    (hmapped : ∀ i (h : i < (encode chars).length),
      HoldsByte token m.bytes (ptr + i) (encode chars)[i])
    (hbelow : ptr + (encode chars).length ≤ 2 ^ 39) :
    Returns (sysWrite fdTable token fd ptr (encode chars).length m)
      (.ok ((encode chars).length, m.print chars)) ↔
    (chars = [] ∨ ptr + (encode chars).length < 2 ^ 39) ∧ PagesAtBoundaries ptr chars := by
  have hdata : HoldsData (PageTable.fromToken token) m.bytes ptr (encode chars) := by
    intro i hi
    obtain ⟨pa, hpa, hbyte⟩ := (hmapped i hi).translateVa
    rw [hpa, Option.map_some, hbyte]
  have hstop : usizeAdd ptr (encode chars).length = ptr + (encode chars).length :=
    Nat.mod_eq_of_lt (by omega)
  constructor
  · rintro ⟨bound, hbound⟩
    obtain ⟨slices, hslices, hwrite⟩ :=
      (sysWrite_stdout hfd).mp (hbound bound (Nat.le_refl _))
    rw [translatedByteBuffer, hstop] at hslices
    refine ⟨?_, ?_⟩
    · by_contra hnot
      rw [not_or] at hnot
      have hpos : 0 < (encode chars).length :=
        Nat.pos_of_ne_zero fun hzero => hnot.1 (eq_nil_of_length_encode hzero)
      rw [translatedByteBufferLoop_eq_none (by omega) (by omega)] at hslices
      cases hslices
    · rw [← Stdout.writeLoop_iff hslices (by omega) hdata]
      cases hloop : Stdout.writeLoop slices m with
      | error e =>
        rw [hloop] at hwrite
        cases hwrite
      | ok m' =>
        rw [hloop] at hwrite
        simp only [Except.map, Except.ok.injEq, Prod.mk.injEq] at hwrite
        rw [hwrite.2]
  · rintro ⟨hend, hpages⟩
    refine ⟨(encode chars).length, fun turns hturns => (sysWrite_stdout hfd).mpr ?_⟩
    obtain ⟨slices, hslices⟩ : ∃ slices,
        translatedByteBuffer token m.bytes ptr (encode chars).length turns = some slices := by
      rw [translatedByteBuffer, hstop]
      rcases hend with rfl | hlt
      · exact ⟨[], translatedByteBufferLoop_of_le (by simp) _⟩
      · refine translatedByteBufferLoop_returns hlt (fun va hle hva => ?_) (by omega)
        obtain ⟨pte, hpte, -⟩ := hmapped (va - ptr) (by omega)
        rw [(by omega : ptr + (va - ptr) = va), page_eq, VirtAddr.ofUsize_of_lt (by omega)] at hpte
        exact ⟨pte, hpte⟩
    have hloop := hslices
    rw [translatedByteBuffer, hstop] at hloop
    have hlen : (UserBuffer.mk slices).len = (encode chars).length := by
      rw [UserBuffer.len_eq, ← length_flatMap_addrs, (translatedByteBufferLoop_spec hloop).1]
      omega
    refine ⟨slices, hslices, ?_⟩
    rw [(Stdout.writeLoop_iff hloop (by omega) hdata).mpr hpages, hlen]
    rfl

/-! ## From the user stack of a main thread -/

/-- The descriptors that a process starts with. -/
def stdTable : FdTable File := [some stdin, some stdout, some stdout]

/-- The letter é at the bottom of the stack is printed. -/
theorem stdout_write_exact_iff_bottom : ∃ ms s,
    UserReaches smallLayout (fun _ => some ⟨[], [], 0⟩) ms s ∧
      Returns (sysWrite stdTable ms.pageTable.token 1 0x1000 2 ⟨s.bytes, []⟩)
        (.ok (2, ⟨s.bytes, [0xe9]⟩)) := by
  have hfacts : (stringSpace [(0x1000, 0xc3), (0x1001, 0xa9)]).map (fun r =>
      (decide (HoldsByte r.1.pageTable.token r.2.bytes 0x1000 0xc3),
        decide (HoldsByte r.1.pageTable.token r.2.bytes 0x1001 0xa9))) = some (true, true) := by
    decide +kernel
  obtain ⟨⟨ms, s⟩, hspace, hfacts⟩ := Option.map_eq_some_iff.mp hfacts
  simp only [Prod.mk.injEq, decide_eq_true_eq] at hfacts
  have hencode : encode [Char.ofNat 0xe9] = [0xc3, 0xa9] := by decide
  refine ⟨ms, s, stringSpace_reaches (by decide) hspace, ?_⟩
  refine (stdout_write_exact_iff stdTable ms.pageTable.token 1 0x1000 ⟨s.bytes, []⟩
    [Char.ofNat 0xe9] rfl (fun i hi => ?_) (by rw [hencode]; simp)).mpr
    ⟨.inr (by rw [hencode]; simp), fun i hi hpage => ?_⟩
  · simp only [hencode, List.length_cons, List.length_nil] at hi ⊢
    rcases (by omega : i = 0 ∨ i = 1) with rfl | rfl
    · exact hfacts.1
    · exact hfacts.2
  · rw [hencode, List.length_cons, List.length_cons, List.length_nil] at hi
    obtain rfl : i = 0 := by omega
    exact boundary_zero _

/-- The same letter across the boundary between the two pages of the stack: the kernel panics
before anything is printed. -/
theorem stdout_write_across_pages_panics : ∃ ms s m,
    UserReaches smallLayout (fun _ => some ⟨[], [], 0⟩) ms s ∧
      HoldsByte ms.pageTable.token s.bytes 0x1fff 0xc3 ∧
      HoldsByte ms.pageTable.token s.bytes 0x2000 0xa9 ∧
      decode [0xc3, 0xa9] = some [Char.ofNat 0xe9] ∧
      sysWrite stdTable ms.pageTable.token 1 0x1fff 2 ⟨s.bytes, []⟩ 2 = some (.error m) ∧
      m.console = [] := by
  have hfacts : (stringSpace [(0x1fff, 0xc3), (0x2000, 0xa9)]).map (fun r =>
      (decide (HoldsByte r.1.pageTable.token r.2.bytes 0x1fff 0xc3),
        decide (HoldsByte r.1.pageTable.token r.2.bytes 0x2000 0xa9),
        (sysWrite stdTable r.1.pageTable.token 1 0x1fff 2 ⟨r.2.bytes, []⟩ 2).map fun
          | .error m => some m.console
          | .ok _ => none)) = some (true, true, some (some [])) := by
    decide +kernel
  obtain ⟨⟨ms, s⟩, hspace, hfacts⟩ := Option.map_eq_some_iff.mp hfacts
  simp only [Prod.mk.injEq, decide_eq_true_eq, Option.map_eq_some_iff] at hfacts
  obtain ⟨hfirst, hsecond, r, hwrite, hr⟩ := hfacts
  cases r with
  | ok _ => cases hr
  | error m =>
    exact ⟨ms, s, m, stringSpace_reaches (by decide) hspace, hfirst, hsecond,
      decode_eq_some.mpr (by decide), hwrite, Option.some.inj hr⟩

end RCore.Syscall
