import RCore.Lib.Utf8
import RCore.Syscall.ValueRefs
import RCore.Task.Exec

/-!
# Strings in user memory

`translated_str` takes each byte of the caller's string for a character and pushes it, so that
the string of the kernel has the characters of the bytes and not the bytes.  `sys_open` takes a
path this way, and `sys_exec` the path and the arguments.
-/

namespace RCore.Syscall

open RCore.Mm RCore.Task RCore.Lib.Utf8 List Option PageTable
open VirtAddr (ofUsize ofUsize_eq)
open RCore.Task.Exec (asBytes)

variable {string : String} {read : List Nat}

/-! ## What the caller passes -/

/-- The byte at a mapped address. -/
def HoldsByte (token : Nat) (bytes : Memory) (va : Nat) (b : UInt8) : Prop :=
  ∃ pte, (PageTable.fromToken token).translate bytes (page va) = some pte ∧ pte.isValid = true ∧
    bytes (4096 * pte.ppn + va % 4096) = b

/-- A mapped string: the bytes before the first zero. -/
def HoldsStr (token : Nat) (bytes : Memory) : Nat → List UInt8 → Prop
  | va, [] => HoldsByte token bytes va 0
  | va, b :: data => b ≠ 0 ∧ HoldsByte token bytes va b ∧ HoldsStr token bytes (usizeAdd va 1) data

/-- Strings for `sys_exec`: the pointers to them, with a zero behind the last one. -/
def HoldsArgs (token : Nat) (bytes : Memory) : Nat → List (Nat × List UInt8) → Prop
  | args, [] => ∃ pa, translatedRef token bytes args = some pa ∧ bytes.readUsize pa = 0
  | args, (ptr, data) :: strings =>
      (∃ pa, translatedRef token bytes args = some pa ∧ bytes.readUsize pa = ptr) ∧ ptr ≠ 0 ∧
        HoldsStr token bytes ptr data ∧ HoldsArgs token bytes (usizeAdd args 8) strings

/-- No byte of the string, the zero included, is at physical address 0, to which there is no
reference. -/
def StrNonNull (token : Nat) (bytes : Memory) (ptr : Nat) (data : List UInt8) : Prop :=
  ∀ i ≤ data.length,
    (PageTable.fromToken token).translateVa bytes (VirtAddr.ofUsize (usizeAdd ptr i)) ≠ some 0

/-- A string that arrives as it is. -/
def Plain (token : Nat) (bytes : Memory) (string : Nat × List UInt8) : Prop :=
  StrNonNull token bytes string.1 string.2 ∧ ∀ b ∈ string.2, b < 0x80

/-- With enough turns the loops end, with this result. -/
def Returns {α : Type} (f : Nat → Option α) (r : α) : Prop :=
  ∃ bound, ∀ turns, bound ≤ turns → f turns = some r

theorem holdsByte_iff {token : Nat} {bytes : Memory} {va : Nat} {b : UInt8} :
    HoldsByte token bytes va b ↔
      ((fromToken token).translate bytes (page va)).any (fun pte =>
        pte.isValid && bytes (4096 * pte.ppn + va % 4096) == b) = true := by
  simp [HoldsByte, Option.any_eq_true]

instance (token : Nat) (bytes : Memory) (va : Nat) (b : UInt8) :
    Decidable (HoldsByte token bytes va b) :=
  decidable_of_iff _ holdsByte_iff.symm

instance decidableHoldsStr (token : Nat) (bytes : Memory) :
    (va : Nat) → (data : List UInt8) → Decidable (HoldsStr token bytes va data)
  | va, [] => inferInstanceAs (Decidable (HoldsByte token bytes va 0))
  | va, b :: data =>
      have := decidableHoldsStr token bytes (usizeAdd va 1) data
      inferInstanceAs (Decidable (b ≠ 0 ∧ HoldsByte token bytes va b ∧
        HoldsStr token bytes (usizeAdd va 1) data))

instance (token : Nat) (bytes : Memory) (ptr : Nat) (data : List UInt8) :
    Decidable (StrNonNull token bytes ptr data) :=
  inferInstanceAs (Decidable (∀ i ≤ data.length, _))

/-! ## The string of the kernel -/

section Strings

variable {token va turns : Nat} {bytes : Memory} {b : UInt8} {data : List UInt8}

theorem asBytes_eq (string : String) : asBytes string = encode string.toList := by
  rw [asBytes, toByteArray_eq]

theorem HoldsByte.translateVa (h : HoldsByte token bytes va b) : ∃ pa,
    (fromToken token).translateVa bytes (ofUsize va) = some pa ∧
      bytes pa = b := by
  obtain ⟨pte, hpte, -, hb⟩ := h
  refine ⟨_, ?_, hb⟩
  rw [ValueAccess.translateVa_eq_frame, ValueAccess.frame, hpte, map_some, map_some]

theorem ofUsize_usizeAdd_zero (va : Nat) :
    ofUsize (usizeAdd va 0) = ofUsize va := by
  rw [ofUsize_eq, ofUsize_eq, usizeAdd]
  omega

theorem ofUsize_usizeAdd_succ (va i : Nat) :
    ofUsize (usizeAdd (usizeAdd va 1) i) = ofUsize (usizeAdd va (i + 1)) := by
  rw [ofUsize_eq, ofUsize_eq, usizeAdd, usizeAdd, usizeAdd]
  omega

theorem strNonNull_nil : StrNonNull token bytes va [] ↔
    (fromToken token).translateVa bytes (ofUsize va) ≠ some 0 := by
  simp [StrNonNull, ofUsize_usizeAdd_zero]

theorem strNonNull_cons : StrNonNull token bytes va (b :: data) ↔
    (fromToken token).translateVa bytes (ofUsize va) ≠ some 0 ∧
      StrNonNull token bytes (usizeAdd va 1) data := by
  constructor
  · intro h
    refine ⟨?_, fun i hi => ?_⟩
    · rw [← ofUsize_usizeAdd_zero]
      exact h 0 (Nat.zero_le _)
    · rw [ofUsize_usizeAdd_succ]
      exact h (i + 1) (Nat.succ_le_succ hi)
  · rintro ⟨hfirst, hrest⟩ i hi
    cases i with
    | zero => rwa [ofUsize_usizeAdd_zero]
    | succ i =>
      rw [← ofUsize_usizeAdd_succ]
      exact hrest i (Nat.le_of_succ_le_succ hi)

section

variable (h : HoldsStr token bytes va data)
include h

theorem translatedStrLoop_returns (hnull : StrNonNull token bytes va data) (string : String)
    (read : List Nat) : ∃ string' read',
      ∀ turns, data.length + 1 ≤ turns →
        translatedStrLoop (fromToken token) bytes va string read turns =
          some (string', read') := by
  induction data generalizing va string read with
  | nil =>
    obtain ⟨pa, hpa, hzero⟩ := HoldsByte.translateVa h
    rw [strNonNull_nil, hpa] at hnull
    refine ⟨string, read ++ [pa], fun turns hturns => ?_⟩
    obtain ⟨turns, rfl⟩ : ∃ k, turns = k + 1 := ⟨turns - 1, by omega⟩
    rw [translatedStrLoop, hpa, do_some, getRef, if_neg (fun heq => hnull (by rw [heq])), do_some]
    exact if_pos hzero
  | cons b data ih =>
    obtain ⟨hne, hb, hrest⟩ := h
    obtain ⟨pa, hpa, rfl⟩ := hb.translateVa
    rw [strNonNull_cons, hpa] at hnull
    obtain ⟨string', read', hloop⟩ :=
      ih hrest hnull.2 (string.push (Char.ofNat (bytes pa).toNat)) (read ++ [pa])
    refine ⟨string', read', fun turns hturns => ?_⟩
    obtain ⟨turns, rfl⟩ : ∃ k, turns = k + 1 := ⟨turns - 1, by omega⟩
    rw [length_cons] at hturns
    rw [translatedStrLoop, hpa, do_some, getRef, if_neg (fun heq => hnull.1 (by rw [heq])), do_some]
    exact (if_neg hne).trans (hloop turns (by omega))

/-- Where it ends, it has pushed a character for each byte. -/
theorem translatedStrLoop_pushes {string' : String} {read' : List Nat}
    (hloop : translatedStrLoop (fromToken token) bytes va string read turns =
      some (string', read')) :
    StrNonNull token bytes va data ∧ string'.toList = string.toList ++ latin1 data := by
  induction turns generalizing va string read data with
  | zero => cases hloop
  | succ turns ih =>
    simp only [translatedStrLoop, getRef, do_eq_some_iff, ite_none_left_eq_some,
      Option.some.injEq] at hloop
    obtain ⟨pa, hpa, _, ⟨hnull, rfl⟩, hloop⟩ := hloop
    have hfirst :
        (fromToken token).translateVa bytes (ofUsize va) ≠ some 0 := by
      rw [hpa]
      exact fun heq => hnull (Option.some.inj heq)
    cases data with
    | nil =>
      obtain ⟨_, hpa', hzero⟩ := HoldsByte.translateVa h
      cases hpa.symm.trans hpa'
      rw [if_pos hzero, Option.some.injEq, Prod.mk.injEq] at hloop
      obtain ⟨rfl, -⟩ := hloop
      exact ⟨strNonNull_nil.mpr hfirst, (append_nil _).symm⟩
    | cons b data =>
      obtain ⟨hne, hb, hrest⟩ := h
      obtain ⟨_, hpa', rfl⟩ := hb.translateVa
      cases hpa.symm.trans hpa'
      rw [if_neg hne] at hloop
      obtain ⟨hnonNull, hstring⟩ := ih hrest hloop
      refine ⟨strNonNull_cons.mpr ⟨hfirst, hnonNull⟩, ?_⟩
      rw [hstring, String.toList_push, append_assoc]
      rfl

theorem translatedStr_returns (hnull : StrNonNull token bytes va data) :
    ∃ string read, Returns (translatedStr token bytes va) (string, read) := by
  obtain ⟨string, read, hloop⟩ := translatedStrLoop_returns h hnull "" []
  exact ⟨string, read, data.length + 1, hloop⟩

theorem asBytes_translatedStr (hstr : translatedStr token bytes va turns = some (string, read)) :
    StrNonNull token bytes va data ∧ asBytes string = encode (latin1 data) := by
  obtain ⟨hnull, hstring⟩ := translatedStrLoop_pushes h hstr
  refine ⟨hnull, ?_⟩
  rw [asBytes_eq, hstring]
  rfl

theorem asBytes_eq_iff_plain (hstr : translatedStr token bytes va turns = some (string, read)) :
    asBytes string = data ↔ Plain token bytes (va, data) := by
  obtain ⟨hnull, hbytes⟩ := asBytes_translatedStr h hstr
  rw [hbytes, encode_latin1_eq_iff, Plain, and_iff_right hnull]

end

end Strings

/-! ## The strings of `sys_exec` -/

section Exec

variable {token args : Nat} {bytes : Memory} {strings : List (Nat × List UInt8)}

theorem execArgsLoop_returns (h : HoldsArgs token bytes args strings)
    (hnull : ∀ string ∈ strings, StrNonNull token bytes string.1 string.2) : ∃ argsVec accesses bound,
      ∀ turns n, bound ≤ turns → bound ≤ n → ∀ before,
        execArgsLoop token bytes turns n args before = some (before ++ argsVec, accesses) := by
  induction strings generalizing args with
  | nil =>
    obtain ⟨pa, hpa, hzero⟩ := h
    refine ⟨[], [⟨bytes, args, 8⟩], 1, fun turns n _ hn before => ?_⟩
    obtain ⟨n, rfl⟩ : ∃ k, n = k + 1 := ⟨n - 1, by omega⟩
    rw [execArgsLoop, hpa, do_some]
    simp only [if_pos hzero, append_nil]
  | cons string strings ih =>
    obtain ⟨ptr, data⟩ := string
    obtain ⟨⟨pa, hpa, rfl⟩, hne, hstr, hrest⟩ := h
    obtain ⟨hfirst, hnull⟩ := forall_mem_cons.mp hnull
    obtain ⟨arg, read, bound, hbound⟩ := translatedStr_returns hstr hfirst
    obtain ⟨argsVec, accesses, bound', hloop⟩ := ih hrest hnull
    refine ⟨arg :: argsVec, ⟨bytes, args, 8⟩ :: accesses, max bound (bound' + 1),
      fun turns n hturns hn before => ?_⟩
    obtain ⟨n, rfl⟩ : ∃ k, n = k + 1 := ⟨n - 1, by omega⟩
    rw [execArgsLoop, hpa, do_some]
    simp only [if_neg hne, hbound turns (by omega), bind_eq_bind, bind_some]
    rw [hloop turns n (by omega) (by omega), bind_some, append_assoc, singleton_append]

/-- Where it ends, each string has been taken by `translated_str`. -/
theorem execArgsLoop_plain_iff {turns n : Nat} (h : HoldsArgs token bytes args strings)
    {before argsVec : List String} {accesses : List ValueAccess}
    (hloop : execArgsLoop token bytes turns n args before = some (argsVec, accesses)) :
    ∃ taken, argsVec = before ++ taken ∧ (taken.map asBytes = strings.map Prod.snd ↔
      ∀ string ∈ strings, Plain token bytes string) := by
  induction n generalizing args before strings accesses with
  | zero => cases hloop
  | succ n ih =>
    rw [execArgsLoop, do_eq_some_iff] at hloop
    obtain ⟨pa, hpa, hloop⟩ := hloop
    simp only at hloop
    cases strings with
    | nil =>
      obtain ⟨_, hpa', hzero⟩ := h
      cases hpa.symm.trans hpa'
      rw [if_pos hzero] at hloop
      cases hloop
      exact ⟨[], (append_nil _).symm, by simp⟩
    | cons string strings =>
      obtain ⟨ptr, data⟩ := string
      obtain ⟨⟨_, hpa', rfl⟩, hne, hstr, hrest⟩ := h
      cases hpa.symm.trans hpa'
      simp only [if_neg hne, do_eq_some_iff, Option.some.injEq, Prod.mk.injEq] at hloop
      obtain ⟨⟨arg, _⟩, harg, ⟨_, _⟩, hloop, rfl, -⟩ := hloop
      obtain ⟨taken, htaken, hiff⟩ := ih hrest hloop
      refine ⟨arg :: taken, by rw [htaken, append_assoc, singleton_append], ?_⟩
      rw [map_cons, map_cons, cons_eq_cons, forall_mem_cons, hiff, asBytes_eq_iff_plain hstr harg]

end Exec

/-- **When strings arrive byte for byte.**  `translated_str` returns on every mapped string none
of whose bytes is at physical address 0, and the string that it returns has the bytes before the
zero exactly if these are ASCII.  The path and the arguments of `sys_exec` arrive with the bytes
that were passed exactly if all of them are of this kind. -/
theorem user_strings_exact_iff (token : Nat) (bytes : Memory) :
    (∀ ptr data, HoldsStr token bytes ptr data →
      (StrNonNull token bytes ptr data →
        ∃ string read, Returns (translatedStr token bytes ptr) (string, read)) ∧
      ((∃ string read, Returns (translatedStr token bytes ptr) (string, read) ∧
        asBytes string = data) ↔ Plain token bytes (ptr, data))) ∧
    ∀ path args pathData strings, HoldsStr token bytes path pathData →
      HoldsArgs token bytes args strings →
      ((∃ path' argsVec accesses,
        Returns (fun turns => execStrings token bytes turns path args) (path', argsVec, accesses) ∧
          asBytes path' = pathData ∧ argsVec.map asBytes = strings.map Prod.snd) ↔
        ∀ string ∈ (path, pathData) :: strings, Plain token bytes string) := by
  refine ⟨fun ptr data hstr => ⟨translatedStr_returns hstr, ?_, fun hplain => ?_⟩,
    fun path args pathData strings hpath hargs => ⟨?_, fun hplain => ?_⟩⟩
  · rintro ⟨string, read, ⟨bound, hbound⟩, hbytes⟩
    exact (asBytes_eq_iff_plain hstr (hbound bound (Nat.le_refl _))).mp hbytes
  · obtain ⟨string, read, bound, hbound⟩ := translatedStr_returns hstr hplain.1
    exact ⟨string, read, ⟨bound, hbound⟩,
      (asBytes_eq_iff_plain hstr (hbound bound (Nat.le_refl _))).mpr hplain⟩
  · rintro ⟨path', argsVec, accesses, ⟨bound, hbound⟩, hpathBytes, hargsBytes⟩
    have hexec := hbound bound (Nat.le_refl _)
    simp only [execStrings, do_eq_some_iff, Option.some.injEq, Prod.mk.injEq] at hexec
    obtain ⟨⟨_, _⟩, hstr, ⟨_, _⟩, hloop, rfl, rfl, -⟩ := hexec
    obtain ⟨taken, rfl, hiff⟩ := execArgsLoop_plain_iff hargs hloop
    exact List.forall_mem_cons.mpr
      ⟨(asBytes_eq_iff_plain hpath hstr).mp hpathBytes, hiff.mp hargsBytes⟩
  · obtain ⟨hfirst, hrest⟩ := List.forall_mem_cons.mp hplain
    obtain ⟨path', read, bound, hbound⟩ := translatedStr_returns hpath hfirst.1
    obtain ⟨argsVec, accesses, bound', hloop⟩ :=
      execArgsLoop_returns hargs fun string hmem => (hrest string hmem).1
    have hloop' := hloop (max bound bound') (max bound bound') (by omega) (by omega) []
    obtain ⟨taken, htaken, hiff⟩ := execArgsLoop_plain_iff hargs hloop'
    obtain rfl : argsVec = taken := htaken
    refine ⟨path', argsVec, accesses, ⟨max bound bound', fun turns hturns => ?_⟩,
      (asBytes_eq_iff_plain hpath (hbound bound (Nat.le_refl _))).mpr hfirst, hiff.mpr hrest⟩
    simp only [execStrings, hbound turns (by omega), do_some,
      hloop turns turns (by omega) (by omega), List.nil_append]

/-! ## On the user stack of a main thread -/

/-- Bytes stored through a space, one after the other. -/
def storeAll (ms : MemorySet) : List (Nat × UInt8) → PhysMem → Option PhysMem
  | [], s => some s
  | (va, b) :: stores, s => (ms.store s va b).bind (storeAll ms stores)

theorem storeAll_reaches {L : Layout} {parse : List UInt8 → Option ElfFile} {ms : MemorySet}
    {s s' : PhysMem} {stores : List (Nat × UInt8)} (h : UserReaches L parse ms s)
    (hlow : ∀ p ∈ stores, p.1 < 2 ^ 38) (hstores : storeAll ms stores s = some s') :
    UserReaches L parse ms s' := by
  induction stores generalizing s with
  | nil =>
    cases hstores
    exact h
  | cons p stores ih =>
    obtain ⟨s₁, hfirst, hrest⟩ := bind_eq_some_iff.mp hstores
    obtain ⟨hlt, hlow⟩ := forall_mem_cons.mp hlow
    refine ih (h.step (.store (by omega) ?_ hfirst)) hlow hrest
    rw [trampolineVpn]
    omega

/-- The main thread with a byte string at the bottom of its stack. -/
def stringSpace (stores : List (Nat × UInt8)) : Option (MemorySet × PhysMem) := do
  let (ms, s) ← mainSpace
  let s ← storeAll ms stores s
  some (ms, s)

theorem stringSpace_reaches {stores : List (Nat × UInt8)} {ms : MemorySet} {s : PhysMem}
    (hlow : ∀ p ∈ stores, p.1 < 2 ^ 38) (h : stringSpace stores = some (ms, s)) :
    UserReaches smallLayout (fun _ => some ⟨[], [], 0⟩) ms s := by
  simp only [stringSpace, do_eq_some_iff, Option.some.injEq, Prod.mk.injEq] at h
  obtain ⟨⟨_, _⟩, hmain, _, hstores, rfl, rfl⟩ := h
  exact storeAll_reaches (mainSpace_reaches hmain) hlow hstores

/-- The path "a", and an array with a pointer to it. -/
theorem user_strings_exact_iff_path : ∃ ms s path argsVec accesses,
    UserReaches smallLayout (fun _ => some ⟨[], [], 0⟩) ms s ∧
      Returns (fun turns => execStrings ms.pageTable.token s.bytes turns 0x1000 0x1008)
        (path, argsVec, accesses) ∧
      asBytes path = [0x61] ∧ argsVec.map asBytes = [[0x61]] := by
  have hfacts : (stringSpace [(0x1000, 0x61), (0x1009, 0x10)]).map (fun r =>
      let token := r.1.pageTable.token
      (decide (HoldsStr token r.2.bytes 0x1000 [0x61]),
        decide (StrNonNull token r.2.bytes 0x1000 [0x61]),
        (translatedRef token r.2.bytes 0x1008).map r.2.bytes.readUsize,
        (translatedRef token r.2.bytes 0x1010).map r.2.bytes.readUsize)) =
      some (true, true, some 0x1000, some 0) := by decide +kernel
  obtain ⟨⟨ms, s⟩, hspace, hfacts⟩ := Option.map_eq_some_iff.mp hfacts
  simp only [Prod.mk.injEq, decide_eq_true_eq, Option.map_eq_some_iff] at hfacts
  obtain ⟨hstr, hnull, hslot, hend⟩ := hfacts
  have hargs : HoldsArgs ms.pageTable.token s.bytes 0x1008 [(0x1000, [0x61])] :=
    ⟨hslot, by decide, hstr, hend⟩
  have hascii : ∀ b ∈ [(0x61 : UInt8)], b < 0x80 := by
    intro b hb
    rw [List.mem_singleton.mp hb]
    decide
  have hplain : Plain ms.pageTable.token s.bytes (0x1000, [0x61]) := ⟨hnull, hascii⟩
  obtain ⟨path, argsVec, accesses, hreturns, hpath, hstrings⟩ :=
    ((user_strings_exact_iff ms.pageTable.token s.bytes).2 0x1000 0x1008 _ _ hstr hargs).mpr
      (by simpa using hplain)
  exact ⟨ms, s, path, argsVec, accesses, stringSpace_reaches (by decide) hspace, hreturns, hpath,
    hstrings⟩

/-- The letter é is stored with its two bytes, and the kernel takes these for two letters of two
bytes each. -/
theorem user_string_widened : ∃ ms s string read,
    UserReaches smallLayout (fun _ => some ⟨[], [], 0⟩) ms s ∧
      HoldsStr ms.pageTable.token s.bytes 0x1000 [0xc3, 0xa9] ∧
      decode [0xc3, 0xa9] = some [Char.ofNat 0xe9] ∧
      Returns (translatedStr ms.pageTable.token s.bytes 0x1000) (string, read) ∧
      asBytes string = [0xc3, 0x83, 0xc2, 0xa9] := by
  have hfacts : (stringSpace [(0x1000, 0xc3), (0x1001, 0xa9)]).map (fun r =>
      let token := r.1.pageTable.token
      (decide (HoldsStr token r.2.bytes 0x1000 [0xc3, 0xa9]),
        decide (StrNonNull token r.2.bytes 0x1000 [0xc3, 0xa9]))) = some (true, true) := by
    decide +kernel
  obtain ⟨⟨ms, s⟩, hspace, hfacts⟩ := Option.map_eq_some_iff.mp hfacts
  simp only [Prod.mk.injEq, decide_eq_true_eq] at hfacts
  obtain ⟨hstr, hnull⟩ := hfacts
  obtain ⟨string, read, bound, hbound⟩ := translatedStr_returns hstr hnull
  obtain ⟨-, hbytes⟩ := asBytes_translatedStr hstr (hbound bound (Nat.le_refl _))
  refine ⟨ms, s, string, read, stringSpace_reaches (by decide) hspace, hstr,
    decode_eq_some.mpr (by decide), ⟨bound, hbound⟩, hbytes.trans (by decide)⟩

end RCore.Syscall
