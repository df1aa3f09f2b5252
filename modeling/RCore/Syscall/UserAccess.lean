import RCore.Mm.Translated
import RCore.Task.UserRes

/-!
# What system calls can touch

System calls reach user memory with the functions of `RCore.Mm.Translated`.  These take
the frame from the leaf entry of a page without looking at its flags.  What they give to
the kernel is memory that the process itself can access exactly if the caller names pages
that it can access.
-/

namespace RCore.Syscall

open RCore.Mm RCore.Task RCore.Lib.Outcome Option PageTable PageTableEntry List Slice
open VirtAddr (ofUsize floor ofUsize_lt ofUsize_eq ofUsize_of_lt)
open PTEFlags (U V)

/-- A call of one of the functions; a reference has the size of its type. -/
inductive UserAccess where
  | byteBuffer (ptr len : Nat)
  | str (ptr : Nat)
  | ref (ptr size : Nat)
  | refmut (ptr size : Nat)

namespace UserAccess

def ptr : UserAccess → Nat
  | byteBuffer ptr _ => ptr
  | str ptr => ptr
  | ref ptr _ => ptr
  | refmut ptr _ => ptr

/-- The physical addresses of the bytes that the kernel is given if the call returns; the
`i`-th is meant for the virtual address `ptr + i`. -/
def addrs (token : Nat) (bytes : Memory) (turns : Nat) : UserAccess → Option (List Nat)
  | byteBuffer ptr len =>
      (translatedByteBuffer token bytes ptr len turns).map (·.flatMap Slice.addrs)
  | str ptr => (translatedStr token bytes ptr turns).map (·.2)
  | ref ptr size => (translatedRef token bytes ptr).map fun pa => Slice.addrs ⟨pa, size⟩
  | refmut ptr size => (translatedRefmut token bytes ptr).map fun pa => Slice.addrs ⟨pa, size⟩

end UserAccess

/-- The page of a virtual address. -/
def page (va : Nat) : Nat := VirtAddr.floor (VirtAddr.ofUsize va)

/-- The physical address belongs to the frame of a valid entry with `U`, the leaf entry of
the page of the virtual address. -/
def Accessible (ms : MemorySet) (bytes : Memory) (va pa : Nat) : Prop :=
  ∃ pte, ms.translate bytes (page va) = some pte ∧ pte.isValid = true ∧
    pte.flags &&& PTEFlags.U ≠ 0 ∧ PhysAddr.floor pa = pte.ppn

/-- The page is in an area for the user. -/
def UserPage (ms : MemorySet) (vpn : Nat) : Prop :=
  ∃ area ∈ ms.areas, area.Covers vpn ∧ area.mapPerm &&& MapPermission.U ≠ 0

/-- What the leaf entry of the page, valid or not, makes of a virtual address. -/
def byteAt (ms : MemorySet) (bytes : Memory) (va : Nat) : Option UInt8 :=
  (ms.pageTable.translateVa bytes (VirtAddr.ofUsize va)).map bytes

/-- The frame of the page, from its leaf entry. -/
def frameAt (ms : MemorySet) (bytes : Memory) (va : Nat) : Option Nat :=
  (ms.translate bytes (page va)).map PageTableEntry.ppn

/-- All pages that the value lies in are user pages, and their frames follow each other. -/
def NamesUserValue (ms : MemorySet) (bytes : Memory) (ptr size : Nat) : Prop :=
  ∀ i < size, UserPage ms (page (ptr + i)) ∧
    frameAt ms bytes (ptr + i) = (frameAt ms bytes ptr).map (· + (ptr % pageSize + i) / pageSize)

/-- The call names pages of areas for the user only: those of the buffer, those of the
string up to its first zero, or those of the value. -/
def UserAccess.NamesUserPages (ms : MemorySet) (bytes : Memory) : UserAccess → Prop
  | byteBuffer ptr len => ∀ va, ptr ≤ va → va < usizeAdd ptr len → UserPage ms (page va)
  | str ptr => ∀ i, (∀ j < i, byteAt ms bytes (ptr + j) ≠ some 0) → UserPage ms (page (ptr + i))
  | ref ptr size => NamesUserValue ms bytes ptr size
  | refmut ptr size => NamesUserValue ms bytes ptr size

/-! ## Pages and entries -/

theorem page_eq (va : Nat) : page va = ofUsize va / 4096 := by
  rw [page, floor, pageFloor_eq]

theorem page_lt (va : Nat) : page va < 2 ^ 27 := by
  have hlt := ofUsize_lt va
  rw [page_eq]
  omega

theorem or_V_and_U (flags : PTEFlags) :
    (flags ||| V) &&& U = flags &&& U := by
  have hzero : V.toBitVec &&& U.toBitVec = 0#8 := rfl
  apply UInt8.eq_of_toBitVec_eq
  rw [UInt8.toBitVec_and, UInt8.toBitVec_or, UInt8.toBitVec_and]
  apply BitVec.eq_of_getLsbD_eq
  intro i hi
  have hbit := congrArg (·.getLsbD i) hzero
  simp only [BitVec.getLsbD_and, BitVec.getLsbD_zero] at hbit
  rw [BitVec.getLsbD_and, BitVec.getLsbD_or, BitVec.getLsbD_and, Bool.and_or_distrib_right, hbit,
    Bool.or_false]

variable {L : Layout} {ms : MemorySet} {s : PhysMem} {rest : List Nat} {vpn va : Nat}

/-- Valid entries with `U` are those of the areas for the user. -/
theorem userPage_iff (h : SpaceInv L ms s rest) (hvpn : vpn < 2 ^ 27) :
    (∃ pte, ms.translate s.bytes vpn = some pte ∧ pte.isValid = true ∧
      pte.flags &&& U ≠ 0) ↔ UserPage ms vpn := by
  constructor
  · rintro ⟨pte, hpte, hvalid, huser⟩
    rcases h.valid_cases hpte hvalid with ⟨-, rfl⟩ | ⟨area, hmem, p, hlookup, rfl⟩
    · rw [flags_new L.trampolinePpn_lt_two_pow] at huser
      exact absurd rfl huser
    · rw [Nat.mod_eq_of_lt hvpn] at hlookup
      have hp := MemorySet.mem_frames hmem (MapArea.mem_frames_of_lookup hlookup)
      rw [flags_new (h.owns.lt (mem_append_left _ hp)), or_V_and_U] at huser
      exact ⟨area, hmem, (h.complete area hmem).covers_of_lookup hlookup, huser⟩
  · rintro ⟨area, hmem, hcovers, huser⟩
    obtain ⟨p, -, -, hplt, htranslate⟩ := h.translate_of_covers hmem hcovers
    refine ⟨_, htranslate, isValid_new hplt _, ?_⟩
    rw [flags_new hplt, or_V_and_U]
    exact huser

theorem rootPpn_lt (h : SpaceInv L ms s rest) : ms.pageTable.rootPpn < 2 ^ 44 := by
  obtain ⟨nodes, htable⟩ := h.table
  exact htable.node_lt htable.tree.root_eq

theorem accessible_iff (h : SpaceInv L ms s rest) {pa : Nat}
    (hpa : ms.pageTable.translateVa s.bytes (ofUsize va) = some pa) :
    Accessible ms s.bytes va pa ↔ UserPage ms (page va) := by
  rw [← userPage_iff h (page_lt va)]
  refine exists_congr fun pte => and_congr_right fun hpte => and_congr_right fun _ => ?_
  rw [translateVa_eq, ← page_eq, ← MemorySet.translate, hpte, map_some, Option.some.injEq] at hpa
  have hfloor : PhysAddr.floor pa = pte.ppn := by
    rw [PhysAddr.floor, pageFloor_eq, ← hpa]
    omega
  simp [hfloor]

/-! ## Calls -/

/-- Every byte is memory that the process can access. -/
def Safe (ms : MemorySet) (bytes : Memory) (ptr : Nat) (addrs : List Nat) : Prop :=
  ∀ i pa, addrs[i]? = some pa → Accessible ms bytes (ptr + i) pa

variable {ptr : Nat}

theorem safe_iff_of_standFor (h : SpaceInv L ms s rest) {addrs : List Nat}
    (hstand : StandFor ms.pageTable s.bytes ptr addrs) :
    Safe ms s.bytes ptr addrs ↔ ∀ i < addrs.length, UserPage ms (page (ptr + i)) := by
  constructor
  · intro hsafe i hi
    exact (accessible_iff h (hstand i hi)).mp (hsafe i _ (getElem?_eq_getElem hi))
  · intro hpages i pa hpa
    obtain ⟨hi, rfl⟩ := List.getElem?_eq_some_iff.mp hpa
    exact (accessible_iff h (hstand i hi)).mpr (hpages i hi)

theorem getElem?_addrs {pa size i q : Nat} :
    (addrs ⟨pa, size⟩)[i]? = some q ↔ i < size ∧ pa + i = q := by
  simp [addrs, List.getElem?_eq_some_iff]

theorem translateVa_token (h : SpaceInv L ms s rest) (bytes : Memory) (va : Nat) :
    (fromToken ms.pageTable.token).translateVa bytes va =
      ms.pageTable.translateVa bytes va := by
  rw [translateVa_eq, translateVa_eq, translate_fromToken (rootPpn_lt h)]

theorem StandFor.of_token (h : SpaceInv L ms s rest) {bytes : Memory} {addrs : List Nat}
    (hstand : StandFor (fromToken ms.pageTable.token) bytes ptr addrs) :
    StandFor ms.pageTable bytes ptr addrs := by
  intro i hi
  rw [← translateVa_token h]
  exact hstand i hi

/-- A value in memory, from its first byte on. -/
theorem safe_value_iff (h : SpaceInv L ms s rest) {size pa : Nat}
    (hpa : ms.pageTable.translateVa s.bytes (ofUsize ptr) = some pa) :
    Safe ms s.bytes ptr (addrs ⟨pa, size⟩) ↔ NamesUserValue ms s.bytes ptr size := by
  obtain ⟨pte₀, hpte₀, hpa⟩ : ∃ pte₀, ms.translate s.bytes (page ptr) = some pte₀ ∧
      4096 * pte₀.ppn + ptr % 4096 = pa := by
    rw [translateVa_eq, ← page_eq] at hpa
    obtain ⟨pte₀, hpte₀, hpa⟩ := map_eq_some_iff.mp hpa
    refine ⟨pte₀, hpte₀, ?_⟩
    rw [← hpa, ofUsize_eq]
    omega
  have hframe₀ : frameAt ms s.bytes ptr = some pte₀.ppn := by rw [frameAt, hpte₀]; rfl
  have hfloor : ∀ i, PhysAddr.floor (pa + i) = pte₀.ppn + (ptr % pageSize + i) / pageSize := by
    intro i
    rw [PhysAddr.floor, pageFloor_eq, ← hpa, pageSize]
    omega
  have hbyte : ∀ i, Accessible ms s.bytes (ptr + i) (pa + i) ↔ UserPage ms (page (ptr + i)) ∧
      frameAt ms s.bytes (ptr + i) =
        (frameAt ms s.bytes ptr).map (· + (ptr % pageSize + i) / pageSize) := by
    intro i
    rw [← userPage_iff h (page_lt _), hframe₀, map_some]
    constructor
    · rintro ⟨pte, hpte, hvalid, huser, hppn⟩
      refine ⟨⟨pte, hpte, hvalid, huser⟩, ?_⟩
      rw [frameAt, hpte, map_some, ← hppn, hfloor]
    · rintro ⟨⟨pte, hpte, hvalid, huser⟩, hframe⟩
      refine ⟨pte, hpte, hvalid, huser, ?_⟩
      rw [frameAt, hpte, map_some, Option.some.injEq] at hframe
      rw [hframe, hfloor]
  constructor
  · exact fun hsafe i hi => (hbyte i).mp (hsafe i _ (getElem?_addrs.mpr ⟨hi, rfl⟩))
  · intro hnames i q hq
    obtain ⟨hi, rfl⟩ := getElem?_addrs.mp hq
    exact (hbyte i).mpr (hnames i hi)

theorem UserAccess.safe_iff (hinv : SpaceInv L ms s rest) (access : UserAccess) {turns : Nat}
    {addrs : List Nat} (hreturns : access.addrs ms.pageTable.token s.bytes turns = some addrs) :
    Safe ms s.bytes access.ptr addrs ↔ access.NamesUserPages ms s.bytes := by
  cases access with
  | byteBuffer ptr len =>
    obtain ⟨slices, hslices, rfl⟩ := map_eq_some_iff.mp hreturns
    obtain ⟨hlength, hstand⟩ := translatedByteBufferLoop_spec hslices
    rw [UserAccess.ptr, safe_iff_of_standFor hinv (StandFor.of_token hinv hstand), hlength]
    constructor
    · intro hpages va hlow hhigh
      have hpage := hpages (va - ptr) (by omega)
      rwa [(by omega : ptr + (va - ptr) = va)] at hpage
    · exact fun hpages i hi => hpages (ptr + i) (by omega) (by omega)
  | str ptr =>
    obtain ⟨⟨string, read⟩, hstr, rfl⟩ := map_eq_some_iff.mp hreturns
    obtain ⟨addrs, hread, hstand, hlength⟩ := translatedStrLoop_spec hstr
    rw [nil_append] at hread
    simp only [translateVa_token hinv] at hlength
    rw [UserAccess.ptr, hread, safe_iff_of_standFor hinv (StandFor.of_token hinv hstand)]
    exact forall_congr' fun i => imp_congr_left (hlength i)
  | ref ptr size =>
    obtain ⟨pa, hpa, rfl⟩ := map_eq_some_iff.mp hreturns
    have hva := translateVa_of_translatedValue hpa
    rw [translateVa_token hinv] at hva
    exact safe_value_iff hinv hva
  | refmut ptr size =>
    obtain ⟨pa, hpa, rfl⟩ := map_eq_some_iff.mp hreturns
    have hva := translateVa_of_translatedValue hpa
    rw [translateVa_token hinv] at hva
    exact safe_value_iff hinv hva

theorem translatedValue_eq (h : SpaceInv L ms s rest) {pte : PageTableEntry}
    (hpte : ms.translate s.bytes (page ptr) = some pte) (hne : 4096 * pte.ppn + ptr % 4096 ≠ 0) :
    translatedValue ms.pageTable.token s.bytes ptr = some (4096 * pte.ppn + ptr % 4096) := by
  have hoff : ofUsize ptr % 4096 = ptr % 4096 := by
    rw [ofUsize_eq]
    omega
  rw [translatedValue, translateVa_token h, translateVa_eq, ← page_eq,
    ← MemorySet.translate, hpte, map_some, hoff]
  exact if_neg hne

/-- **System calls give the kernel memory of the process exactly if the process names its
own pages.**  In every space of a process, for every call that returns: all bytes that the
kernel is given belong to frames of valid entries with `U`, at the pages they are meant
for, if and only if the call names only pages of areas for the user, and, where a value
crosses a page boundary, the frames of its pages follow each other. -/
theorem user_access_safe_iff {parse : List UInt8 → Option ElfFile} (h : UserReaches L parse ms s)
    (access : UserAccess) (turns : Nat) {addrs : List Nat}
    (hreturns : access.addrs ms.pageTable.token s.bytes turns = some addrs) :
    Safe ms s.bytes access.ptr addrs ↔ access.NamesUserPages ms s.bytes := by
  obtain ⟨rest, hinv⟩ := h.inv
  exact access.safe_iff hinv hreturns

deriving instance DecidableEq for Slice

/-- A process with its main thread, whose user stack is at 0x1000. -/
def mainSpace : Option (MemorySet × PhysMem) := do
  let ((memorySet, ustackBase, _), s) ← MemorySet.fromElf (fun _ => some ⟨[], [], 0⟩)
    smallLayout.strampoline ⟨fun _ => 7, ⟨100, 200, []⟩⟩ []
  TaskUserRes.allocUserRes ⟨0, ustackBase⟩ memorySet s

theorem mainSpace_reaches {ms : MemorySet} {s : PhysMem} (h : mainSpace = some (ms, s)) :
    UserReaches smallLayout (fun _ => some ⟨[], [], 0⟩) ms s := by
  simp only [mainSpace, do_eq_some_iff] at h
  obtain ⟨⟨⟨ms₁, base, entry⟩, s₁⟩, hload, halloc⟩ := h
  obtain ⟨ms₂, s₂, hfirst, hsecond⟩ := TaskUserRes.allocUserRes_steps halloc
  exact ((UserReaches.elf owns_smallLayout hload).step hfirst).step hsecond

/-- A buffer on the user stack of the main thread. -/
theorem user_access_safe_iff_stack : ∃ ms s addrs,
    UserReaches smallLayout (fun _ => some ⟨[], [], 0⟩) ms s ∧
      (UserAccess.byteBuffer 0x1000 8).addrs ms.pageTable.token s.bytes 8 = some addrs ∧
      addrs.length = 8 ∧ Safe ms s.bytes 0x1000 addrs := by
  have hfacts : (mainSpace.map fun r =>
      (((UserAccess.byteBuffer 0x1000 8).addrs r.1.pageTable.token r.2.bytes 8).map List.length,
        decide (∃ area ∈ r.1.areas, (area.startVpn ≤ 1 ∧ 1 < area.endVpn) ∧
          area.mapPerm &&& MapPermission.U ≠ 0))) = some (some 8, true) := by decide +kernel
  obtain ⟨⟨ms, s⟩, hspace, hfacts⟩ := Option.map_eq_some_iff.mp hfacts
  simp only [Prod.mk.injEq, Option.map_eq_some_iff, decide_eq_true_eq] at hfacts
  obtain ⟨⟨addrs, haddrs, hlength⟩, huser⟩ := hfacts
  have h := mainSpace_reaches hspace
  refine ⟨ms, s, addrs, h, haddrs, hlength, (user_access_safe_iff h _ 8 haddrs).mpr ?_⟩
  intro va hlow hhigh
  change va < 0x1008 at hhigh
  have hpage : page va = 1 := by
    rw [page_eq, ofUsize_of_lt (by omega)]
    omega
  rw [hpage]
  exact huser

/-- The main thread names its trap context, the trampoline and a page that is not mapped:
the kernel is given the trap context, the trampoline and physical page 0. -/
theorem user_access_beyond_user_pages : ∃ ms s,
    UserReaches smallLayout (fun _ => some ⟨[], [], 0⟩) ms s ∧
      (∃ addrs, (UserAccess.byteBuffer 0x7fffffe000 8).addrs ms.pageTable.token s.bytes 8 =
        some addrs ∧ addrs.length = 8 ∧ ¬Safe ms s.bytes 0x7fffffe000 addrs) ∧
      (∃ addrs, (UserAccess.ref 0x7ffffff000 8).addrs ms.pageTable.token s.bytes 0 =
        some addrs ∧ addrs.length = 8 ∧ ¬Safe ms s.bytes 0x7ffffff000 addrs) ∧
      (UserAccess.refmut 0x7fffffd008 8).addrs ms.pageTable.token s.bytes 0 =
        some [8, 9, 10, 11, 12, 13, 14, 15] ∧
      ¬Safe ms s.bytes 0x7fffffd008 [8, 9, 10, 11, 12, 13, 14, 15] := by
  have hfacts : (mainSpace.map fun r =>
      let token := r.1.pageTable.token
      (((UserAccess.byteBuffer 0x7fffffe000 8).addrs token r.2.bytes 8).map List.length,
        ((UserAccess.ref 0x7ffffff000 8).addrs token r.2.bytes 0).map List.length,
        (UserAccess.refmut 0x7fffffd008 8).addrs token r.2.bytes 0,
        [0x7fffffe000, 0x7ffffff000, 0x7fffffd008].map fun va =>
          (r.1.translate r.2.bytes (page va)).any fun pte =>
            pte.isValid && pte.flags &&& PTEFlags.U != 0)) =
      some (some 8, some 8, some [8, 9, 10, 11, 12, 13, 14, 15], [false, false, false]) := by
    decide +kernel
  obtain ⟨⟨ms, s⟩, hspace, hfacts⟩ := Option.map_eq_some_iff.mp hfacts
  simp only [Prod.mk.injEq, Option.map_eq_some_iff, List.map_cons, List.map_nil,
    List.cons.injEq] at hfacts
  obtain ⟨⟨buffer, hbuffer, hlength⟩, ⟨value, hvalue, hlength'⟩, hhole, hno, hno', hno'', -⟩ := hfacts
  have hunsafe : ∀ {va addrs}, List.length addrs = 8 →
      ((ms.translate s.bytes (page va)).any fun pte =>
        pte.isValid && pte.flags &&& PTEFlags.U != 0) = false → ¬Safe ms s.bytes va addrs := by
    intro va addrs hlength hno hsafe
    obtain ⟨pte, hpte, hvalid, huser, -⟩ := hsafe 0 _ (List.getElem?_eq_getElem (by omega))
    rw [Nat.add_zero] at hpte
    simp [hpte, hvalid, huser] at hno
  exact ⟨ms, s, mainSpace_reaches hspace, ⟨buffer, hbuffer, hlength, hunsafe hlength hno⟩,
    ⟨value, hvalue, hlength', hunsafe hlength' hno'⟩, hhole, hunsafe rfl hno''⟩

end RCore.Syscall
