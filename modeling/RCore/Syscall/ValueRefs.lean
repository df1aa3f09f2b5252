import RCore.Syscall.UserAccess

/-!
# Values in user memory

`sys_waitpid`, `sys_pipe` and `sys_exec` read and write an `i32` or a `usize` of the caller
through `translated_ref` and `translated_refmut`.  Only the address of the first byte is
translated, and the others are taken to follow it in physical memory.
-/

namespace RCore.Syscall

open RCore.Mm RCore.Task RCore.Lib.LittleEndian List Option
open VirtAddr (ofUsize ofUsize_eq)

/-! ## The model -/

/-- A value that a call refers to: the memory at that moment, the pointer and the size of its
type. -/
structure ValueAccess where
  bytes : Memory
  ptr : Nat
  size : Nat

/-- `n` bytes of `v` in the order of the machine. -/
def writeValue (m : Memory) (pa n v : Nat) : Memory := fun x =>
  if pa ≤ x ∧ x < pa + n then leByte v (x - pa) else m x

/-- `*translated_refmut(token, ptr) = v`, with the access. -/
def storeValue (token : Nat) (bytes : Memory) (ptr size v : Nat) :
    Option (Memory × List ValueAccess) := do
  let pa ← translatedRefmut token bytes ptr
  some (writeValue bytes pa size v, [⟨bytes, ptr, size⟩])

/-- `sys_waitpid` stores the exit code of the child that it has found, an `i32`. -/
def waitpidStore (token : Nat) (bytes : Memory) (exitCodePtr exitCode : Nat) :
    Option (Memory × List ValueAccess) :=
  storeValue token bytes exitCodePtr 4 exitCode

/-- `sys_pipe` stores the two descriptors. -/
def pipeStore (token : Nat) (bytes : Memory) (pipe readFd writeFd : Nat) :
    Option (Memory × List ValueAccess) := do
  let (bytes, first) ← storeValue token bytes pipe 8 readFd
  let (bytes, second) ← storeValue token bytes (usizeAdd pipe 8) 8 writeFd
  some (bytes, first ++ second)

/-- The loop of `sys_exec` over the pointers to the arguments, with the strings so far.  It
takes the number of turns that the loops may make. -/
def execArgsLoop (token : Nat) (bytes : Memory) (turns : Nat) :
    Nat → Nat → List String → Option (List String × List ValueAccess)
  | 0, _, _ => none
  | n + 1, args, argsVec => do
      let pa ← translatedRef token bytes args
      let argStrPtr := bytes.readUsize pa
      if argStrPtr = 0 then some (argsVec, [⟨bytes, args, 8⟩])
      else do
        let (arg, _) ← translatedStr token bytes argStrPtr turns
        let (argsVec, accesses) ←
          execArgsLoop token bytes turns n (usizeAdd args 8) (argsVec ++ [arg])
        some (argsVec, ⟨bytes, args, 8⟩ :: accesses)

/-- What `sys_exec` takes from the caller: the path and the arguments. -/
def execStrings (token : Nat) (bytes : Memory) (turns path args : Nat) :
    Option (String × List String × List ValueAccess) := do
  let (path, _) ← translatedStr token bytes path turns
  let (argsVec, accesses) ← execArgsLoop token bytes turns turns args []
  some (path, argsVec, accesses)

/-- The system calls that refer to values of the caller. -/
inductive ValueCall where
  | waitpid (exitCodePtr exitCode : Nat)
  | pipe (ptr readFd writeFd : Nat)
  | exec (path args : Nat)

/-- The accesses of a call that gets through with them. -/
def ValueCall.accesses (token : Nat) (bytes : Memory) (turns : Nat) :
    ValueCall → Option (List ValueAccess)
  | waitpid exitCodePtr exitCode => (waitpidStore token bytes exitCodePtr exitCode).map (·.2)
  | pipe ptr readFd writeFd => (pipeStore token bytes ptr readFd writeFd).map (·.2)
  | exec path args => (execStrings token bytes turns path args).map (·.2.2)

/-! ## The bytes of a value -/

namespace ValueAccess

/-- The frame in the leaf entry of the page of an address. -/
def frame (token : Nat) (bytes : Memory) (va : Nat) : Option Nat :=
  ((PageTable.fromToken token).translate bytes (page va)).map PageTableEntry.ppn

/-- The pages of all bytes of the value have valid entries. -/
def Mapped (token : Nat) (a : ValueAccess) : Prop :=
  ∀ i < a.size, ∃ pte, (PageTable.fromToken token).translate a.bytes (page (usizeAdd a.ptr i)) =
    some pte ∧ pte.isValid = true

/-- Both references are to the bytes that the addresses of the value are translated to. -/
def Exact (token : Nat) (a : ValueAccess) : Prop :=
  ∃ pa, translatedRef token a.bytes a.ptr = some pa ∧
    translatedRefmut token a.bytes a.ptr = some pa ∧
    ∀ i < a.size, (PageTable.fromToken token).translateVa a.bytes
      (VirtAddr.ofUsize (usizeAdd a.ptr i)) = some (pa + i)

/-- All bytes that a reference to the value gives access to are in frames of the pages of the
value. -/
def InNamedFrames (token : Nat) (a : ValueAccess) : Prop :=
  ∀ pa, translatedRef token a.bytes a.ptr = some pa → ∀ i < a.size,
    ∃ j < a.size, frame token a.bytes (usizeAdd a.ptr j) = some (PhysAddr.floor (pa + i))

/-- The value is in one page, or the frame of its last byte follows that of its first. -/
def Contiguous (token : Nat) (a : ValueAccess) : Prop :=
  a.ptr % pageSize + a.size ≤ pageSize ∨
    frame token a.bytes (usizeAdd a.ptr (a.size - 1)) = (frame token a.bytes a.ptr).map (· + 1)

variable {token : Nat} {a : ValueAccess}

theorem page_of_lt {ptr i : Nat} (hi : ptr % 4096 + i < 4096) :
    page (usizeAdd ptr i) = page ptr := by
  rw [page_eq, page_eq, ofUsize_eq, ofUsize_eq, usizeAdd]
  omega

theorem page_of_le {ptr i j : Nat} (hi : 4096 ≤ ptr % 4096 + i) (hij : i ≤ j) (hj : j < 4096) :
    page (usizeAdd ptr i) = page (usizeAdd ptr j) := by
  rw [page_eq, page_eq, ofUsize_eq, ofUsize_eq, usizeAdd, usizeAdd]
  omega

theorem translateVa_eq_frame (bytes : Memory) (va : Nat) :
    (PageTable.fromToken token).translateVa bytes (ofUsize va) =
      (frame token bytes va).map fun ppn => 4096 * ppn + va % 4096 := by
  have hoff : ofUsize va % 4096 = va % 4096 := by
    rw [ofUsize_eq]
    omega
  rw [PageTable.translateVa_eq, hoff, ← page_eq, frame, Option.map_map]
  rfl

theorem translatedRef_eq_some {ptr pa : Nat} {bytes : Memory} :
    translatedRef token bytes ptr = some pa ↔
      pa ≠ 0 ∧ ∃ ppn, frame token bytes ptr = some ppn ∧ pa = 4096 * ppn + ptr % 4096 := by
  rw [translatedRef, translatedValue, translateVa_eq_frame]
  cases frame token bytes ptr with
  | none => simp
  | some ppn =>
    simp only [getRef, map_some, do_some, ite_none_left_eq_some, Option.some.injEq]
    constructor
    · rintro ⟨hne, rfl⟩
      exact ⟨hne, ppn, rfl, rfl⟩
    · rintro ⟨hne, _, rfl, rfl⟩
      exact ⟨hne, rfl⟩

theorem Contiguous.frame_eq {ppn i : Nat} (h : Contiguous token a) (hsize : a.size ≤ 4096)
    (hfirst : frame token a.bytes a.ptr = some ppn) (hi : i < a.size) :
    frame token a.bytes (usizeAdd a.ptr i) = some (ppn + (a.ptr % 4096 + i) / 4096) := by
  rw [Contiguous, pageSize, hfirst] at h
  by_cases hlt : a.ptr % 4096 + i < 4096
  · rw [frame, page_of_lt hlt, ← frame, hfirst]
    congr 1
    omega
  · have hlast := h.resolve_left (by omega)
    rw [frame, page_of_le (by omega) (by omega : i ≤ a.size - 1) (by omega), ← frame, hlast,
      map_some]
    congr 1
    omega

/-- The physical address of the first byte is not 0, to which there is no reference. -/
def NonNull (token : Nat) (a : ValueAccess) : Prop :=
  (PageTable.fromToken token).translateVa a.bytes (VirtAddr.ofUsize a.ptr) ≠ some 0

theorem exact_iff (hpos : 0 < a.size) (hsize : a.size ≤ 4096) (hmapped : Mapped token a) :
    Exact token a ↔ NonNull token a ∧ Contiguous token a := by
  obtain ⟨ppn, hfirst⟩ : ∃ ppn, frame token a.bytes a.ptr = some ppn := by
    obtain ⟨pte, hpte, -⟩ := hmapped 0 hpos
    rw [page_of_lt (by omega)] at hpte
    exact ⟨pte.ppn, by rw [frame, hpte, map_some]⟩
  have hva : (PageTable.fromToken token).translateVa a.bytes (ofUsize a.ptr) =
      some (4096 * ppn + a.ptr % 4096) := by
    rw [translateVa_eq_frame, hfirst, map_some]
  constructor
  · rintro ⟨pa, href, -, hbytes⟩
    obtain ⟨hne, _, hframe, rfl⟩ := translatedRef_eq_some.mp href
    cases hfirst.symm.trans hframe
    refine ⟨?_, ?_⟩
    · rw [NonNull, hva]
      exact fun heq => hne (Option.some.inj heq)
    · rw [Contiguous, pageSize, or_iff_not_imp_left]
      intro hcross
      -- the last byte is behind the boundary, and its address is that of the first and so on
      have hlast := hbytes (a.size - 1) (by omega)
      rw [translateVa_eq_frame] at hlast
      obtain ⟨last, hlast, heq⟩ := map_eq_some_iff.mp hlast
      rw [hlast, hfirst, map_some, Option.some.injEq]
      have hoff : usizeAdd a.ptr (a.size - 1) % 4096 = (a.ptr + (a.size - 1)) % 4096 := by
        rw [usizeAdd]
        omega
      omega
  · rintro ⟨hne, hcontiguous⟩
    rw [NonNull, hva] at hne
    have href : translatedRef token a.bytes a.ptr = some (4096 * ppn + a.ptr % 4096) :=
      translatedRef_eq_some.mpr ⟨fun heq => hne (by rw [heq]), ppn, hfirst, rfl⟩
    refine ⟨_, href, href, fun i hi => ?_⟩
    rw [translateVa_eq_frame, hcontiguous.frame_eq hsize hfirst hi, map_some,
      Option.some.injEq, usizeAdd]
    omega

theorem inNamedFrames_iff {pa : Nat} (hsize : a.size ≤ 4096)
    (href : translatedRef token a.bytes a.ptr = some pa) :
    InNamedFrames token a ↔ Contiguous token a := by
  obtain ⟨-, ppn, hfirst, rfl⟩ := translatedRef_eq_some.mp href
  have hfloor : ∀ i, PhysAddr.floor (4096 * ppn + a.ptr % 4096 + i) =
      ppn + (a.ptr % 4096 + i) / 4096 := by
    intro i
    rw [PhysAddr.floor, pageFloor_eq]
    omega
  constructor
  · intro hnamed
    rw [Contiguous, pageSize, or_iff_not_imp_left]
    intro hcross
    obtain ⟨j, hj, hframe⟩ := hnamed _ href (a.size - 1) (by omega)
    rw [hfloor, (by omega : (a.ptr % 4096 + (a.size - 1)) / 4096 = 1)] at hframe
    -- it is not the frame of the first page, so that it is that of the second
    have hbehind : 4096 ≤ a.ptr % 4096 + j := by
      by_contra hlt
      rw [frame, page_of_lt (by omega), ← frame, hfirst, Option.some.injEq] at hframe
      omega
    rw [frame, ← page_of_le hbehind (by omega : j ≤ a.size - 1) (by omega), ← frame, hframe, hfirst,
      map_some]
  · intro hcontiguous pa' href' i hi
    cases href.symm.trans href'
    exact ⟨i, hi, by rw [hcontiguous.frame_eq hsize hfirst hi, hfloor]⟩

theorem contiguous_of_aligned (hsize : a.size = 4 ∨ a.size = 8) (haligned : a.ptr % a.size = 0) :
    Contiguous token a := by
  left
  rw [pageSize]
  rcases hsize with hsize | hsize
  · rw [hsize] at haligned ⊢
    omega
  · rw [hsize] at haligned ⊢
    omega

end ValueAccess

/-! ## The accesses of the calls -/

/-- The access has returned a reference to an `i32` or a `usize`. -/
def ValueAccess.Returned (token : Nat) (a : ValueAccess) : Prop :=
  (a.size = 4 ∨ a.size = 8) ∧ ∃ pa, translatedRef token a.bytes a.ptr = some pa

section Calls

variable {token turns : Nat} {bytes bytes' : Memory} {accesses : List ValueAccess}

theorem returned_of_storeValue {ptr size v : Nat} (hsize : size = 4 ∨ size = 8)
    (h : storeValue token bytes ptr size v = some (bytes', accesses)) :
    ∀ a ∈ accesses, a.Returned token := by
  simp only [storeValue, do_eq_some_iff, Option.some.injEq, Prod.mk.injEq] at h
  obtain ⟨pa, hpa, -, rfl⟩ := h
  intro a hmem
  rw [mem_singleton.mp hmem]
  exact ⟨hsize, pa, hpa⟩

theorem returned_of_execArgsLoop {n args : Nat} {argsVec argsVec' : List String}
    (h : execArgsLoop token bytes turns n args argsVec = some (argsVec', accesses)) :
    ∀ a ∈ accesses, a.Returned token := by
  induction n generalizing args argsVec accesses with
  | zero => cases h
  | succ n ih =>
    rw [execArgsLoop, do_eq_some_iff] at h
    obtain ⟨pa, hpa, h⟩ := h
    have hfirst : ValueAccess.Returned token ⟨bytes, args, 8⟩ := ⟨.inr rfl, pa, hpa⟩
    simp only at h
    split at h
    · cases h
      intro a hmem
      rw [mem_singleton.mp hmem]
      exact hfirst
    · simp only [do_eq_some_iff, Option.some.injEq, Prod.mk.injEq] at h
      obtain ⟨_, -, ⟨_, accesses'⟩, hrest, rfl, rfl⟩ := h
      exact forall_mem_cons.mpr ⟨hfirst, ih hrest⟩

theorem ValueCall.returned {call : ValueCall}
    (h : call.accesses token bytes turns = some accesses) : ∀ a ∈ accesses, a.Returned token := by
  cases call with
  | waitpid exitCodePtr exitCode =>
    obtain ⟨⟨_, _⟩, hstore, rfl⟩ := map_eq_some_iff.mp h
    exact returned_of_storeValue (.inl rfl) hstore
  | pipe ptr readFd writeFd =>
    obtain ⟨⟨_, _⟩, hstore, rfl⟩ := map_eq_some_iff.mp h
    simp only [pipeStore, do_eq_some_iff, Option.some.injEq, Prod.mk.injEq] at hstore
    obtain ⟨⟨_, first⟩, hfirst, ⟨_, second⟩, hsecond, -, rfl⟩ := hstore
    exact forall_mem_append.mpr
      ⟨returned_of_storeValue (.inr rfl) hfirst, returned_of_storeValue (.inr rfl) hsecond⟩
  | exec path args =>
    obtain ⟨⟨_, _, _⟩, hexec, rfl⟩ := map_eq_some_iff.mp h
    simp only [execStrings, do_eq_some_iff, Option.some.injEq, Prod.mk.injEq] at hexec
    obtain ⟨_, -, ⟨_, _⟩, hloop, -, -, rfl⟩ := hexec
    exact returned_of_execArgsLoop hloop

end Calls

/-- **When a reference is to the bytes of a user value.**  For an `i32` or a `usize` all of
whose bytes are mapped, `translated_ref` and `translated_refmut` refer to the bytes that its
addresses are translated to exactly if the first one is not physical address 0 and the value
is in one page, or the frames of its two pages follow each other.  The accesses of
`sys_waitpid`, `sys_pipe` and `sys_exec` stay within the frames of the pages that they name
exactly if each value is of this kind. -/
theorem value_refs_exact_iff (token : Nat) (bytes : Memory) :
    (∀ ptr size, size = 4 ∨ size = 8 → ValueAccess.Mapped token ⟨bytes, ptr, size⟩ →
      (ValueAccess.Exact token ⟨bytes, ptr, size⟩ ↔
        ValueAccess.NonNull token ⟨bytes, ptr, size⟩ ∧
          ValueAccess.Contiguous token ⟨bytes, ptr, size⟩)) ∧
    ∀ (call : ValueCall) turns accesses, call.accesses token bytes turns = some accesses →
      ((∀ a ∈ accesses, a.InNamedFrames token) ↔ ∀ a ∈ accesses, a.Contiguous token) := by
  refine ⟨fun ptr size hsize hmapped => ?_, fun call turns accesses haccesses => ?_⟩
  · exact ValueAccess.exact_iff (by simp only; omega) (by simp only; omega) hmapped
  · refine forall₂_congr fun a hmem => ?_
    obtain ⟨hsize, pa, href⟩ := call.returned haccesses a hmem
    exact ValueAccess.inNamedFrames_iff (by omega) href

/-! ## On the user stack of a main thread -/

/-- Two descriptors at the bottom of the stack. -/
theorem value_refs_exact_iff_bottom : ∃ ms s,
    UserReaches smallLayout (fun _ => some ⟨[], [], 0⟩) ms s ∧
      ValueAccess.Exact ms.pageTable.token ⟨s.bytes, 0x1000, 8⟩ := by
  have hfacts : (mainSpace.map fun r =>
      ((PageTable.fromToken r.1.pageTable.token).translate r.2.bytes 1).map fun pte =>
        (pte.ppn, pte.isValid)) = some (some (103, true)) := by decide +kernel
  obtain ⟨⟨ms, s⟩, hspace, hfacts⟩ := Option.map_eq_some_iff.mp hfacts
  obtain ⟨pte, hpte, hfacts⟩ := Option.map_eq_some_iff.mp hfacts
  obtain ⟨hppn, hvalid⟩ := Prod.mk.inj hfacts
  have hpage : ∀ i < 8, page (usizeAdd 0x1000 i) = 1 := fun i hi =>
    (ValueAccess.page_of_lt (by omega)).trans (by decide)
  refine ⟨ms, s, mainSpace_reaches hspace, ?_⟩
  refine ((value_refs_exact_iff ms.pageTable.token s.bytes).1 0x1000 8 (.inr rfl) ?_).mpr
    ⟨?_, ValueAccess.contiguous_of_aligned (.inr rfl) (by simp)⟩
  · intro i hi
    rw [hpage i hi]
    exact ⟨pte, hpte, hvalid⟩
  · have hpage₀ : page 0x1000 = 1 := by decide
    rw [ValueAccess.NonNull, ValueAccess.translateVa_eq_frame, ValueAccess.frame, hpage₀, hpte,
      Option.map_some, Option.map_some, hppn]
    exact fun heq => absurd (Option.some.inj heq) (by omega)

/-- The main thread names an `i32` across the boundary between the two pages of its stack for
the exit code of a child: half of it is stored in a frame of the page table.  The same with a
descriptor in `sys_pipe` clears an entry, and the kernel panics at the second descriptor. -/
theorem value_across_pages_misplaced : ∃ ms s accesses,
    UserReaches smallLayout (fun _ => some ⟨[], [], 0⟩) ms s ∧
      ValueAccess.Mapped ms.pageTable.token ⟨s.bytes, 0x1ffe, 4⟩ ∧
      ¬ValueAccess.Exact ms.pageTable.token ⟨s.bytes, 0x1ffe, 4⟩ ∧
      (ValueCall.waitpid 0x1ffe 0).accesses ms.pageTable.token s.bytes 0 = some accesses ∧
      (¬∀ a ∈ accesses, a.InNamedFrames ms.pageTable.token) ∧
      (ValueCall.pipe 0x1ffc 3 4).accesses ms.pageTable.token s.bytes 0 = none := by
  have hfacts : (mainSpace.map fun r =>
      let t := PageTable.fromToken r.1.pageTable.token
      ((t.translate r.2.bytes 1).map fun pte => (pte.ppn, pte.isValid),
        (t.translate r.2.bytes 2).map fun pte => (pte.ppn, pte.isValid),
        ((ValueCall.pipe 0x1ffc 3 4).accesses r.1.pageTable.token r.2.bytes 0).isNone)) =
      some (some (103, true), some (106, true), true) := by decide +kernel
  obtain ⟨⟨ms, s⟩, hspace, hfacts⟩ := Option.map_eq_some_iff.mp hfacts
  simp only [Prod.mk.injEq, Option.map_eq_some_iff, Option.isNone_iff_eq_none] at hfacts
  obtain ⟨⟨first, hfirst, hppn, hvalid⟩, ⟨second, hsecond, hppn', hvalid'⟩, hpipe⟩ := hfacts
  obtain ⟨a, ha⟩ : ∃ a : ValueAccess, a = ⟨s.bytes, 0x1ffe, 4⟩ := ⟨_, rfl⟩
  have hptr : a.ptr = 0x1ffe := by rw [ha]
  have hsize : a.size = 4 := by rw [ha]
  have hbytes : a.bytes = s.bytes := by rw [ha]
  have hfirstPage : page 0x1ffe = 1 := by decide
  have hsecondPage : page (usizeAdd 0x1ffe 3) = 2 := by decide
  have hmapped : a.Mapped ms.pageTable.token := by
    intro i hi
    rw [hptr, hbytes]
    by_cases hlt : i < 2
    · rw [ValueAccess.page_of_lt (by omega), hfirstPage]
      exact ⟨first, hfirst, hvalid⟩
    · rw [ValueAccess.page_of_le (by omega) (by omega : i ≤ 3) (by decide), hsecondPage]
      exact ⟨second, hsecond, hvalid'⟩
  have hnot : ¬a.Contiguous ms.pageTable.token := by
    rw [ValueAccess.Contiguous, hptr, hsize, hbytes]
    rintro (hpage | hframes)
    · exact absurd hpage (by decide)
    · simp only [ValueAccess.frame, hfirstPage, hsecondPage, hfirst, hsecond, Option.map_some,
        hppn, hppn', Option.some.injEq] at hframes
      exact absurd hframes (by decide)
  have href : translatedRef ms.pageTable.token a.bytes a.ptr = some (4096 * 103 + 0xffe) := by
    rw [ValueAccess.translatedRef_eq_some, hptr, hbytes]
    exact ⟨by decide, 103, by rw [ValueAccess.frame, hfirstPage, hfirst, Option.map_some, hppn], rfl⟩
  have haccesses : (ValueCall.waitpid 0x1ffe 0).accesses ms.pageTable.token s.bytes 0 =
      some [a] := by
    rw [hptr, hbytes] at href
    rw [ValueCall.accesses, waitpidStore, storeValue, translatedRefmut, ← translatedRef, href, ha]
    rfl
  refine ⟨ms, s, [a], mainSpace_reaches hspace, ha ▸ hmapped, fun hexact => ?_, haccesses,
    fun hall => ?_, hpipe⟩
  · rw [← ha, ValueAccess.exact_iff (by omega) (by omega) hmapped] at hexact
    exact hnot hexact.2
  · have hnamed := hall a List.mem_cons_self
    exact hnot ((ValueAccess.inNamedFrames_iff (by omega) href).mp hnamed)

end RCore.Syscall
