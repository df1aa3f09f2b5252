import RCore.Task.Exec

/-!
# The entry of a program

`_start` takes the arguments from the stack: it reads the array of pointers, looks for the
zero behind each string and makes a string of the bytes before it.  It reads back what
`exec` has pushed.
-/

namespace RCore.User

open RCore.Mm RCore.Task RCore.Task.Exec RCore.Lib.ArgVector RCore.Lib.LittleEndian RCore.Syscall
open PageTableEntry
open List

/-! ## The model -/

/-- Where a load of the program goes; a page that the user cannot read is a fault. -/
def loadAddr (satp : Nat) (bytes : Memory) (va : Nat) : Option Nat := do
  let pte ← (PageTable.fromToken satp).translate bytes (page va)
  if pte.isValid ∧ pte.flags &&& PTEFlags.R ≠ 0 ∧ pte.flags &&& PTEFlags.U ≠ 0 then
    some (PhysPageNum.toPhysAddr pte.ppn + pageOffset va)
  else none

/-- `read_volatile` of a byte. -/
def loadByte (satp : Nat) (bytes : Memory) (va : Nat) : Option UInt8 :=
  (loadAddr satp bytes va).map bytes

/-- `read_volatile` of a `usize`, which must be aligned. -/
def loadUsize (satp : Nat) (bytes : Memory) (va : Nat) : Option Nat :=
  if va % 8 = 0 then (loadAddr satp bytes va).map bytes.readUsize else none

/-- `(0usize..).find`: the first zero from the `i`-th byte on.  It takes the number of turns
that it may make. -/
def findZero (satp : Nat) (bytes : Memory) (strStart : Nat) : Nat → Nat → Option Nat
  | _, 0 => none
  | i, turns + 1 => do
      let c ← loadByte satp bytes (usizeAdd strStart i)
      if c = 0 then some i else findZero satp bytes strStart (i + 1) turns

/-- `from_utf8(..).unwrap()` -/
def fromUtf8 (data : List UInt8) : Option String := String.fromUTF8? ⟨data.toArray⟩

/-- A turn of the loop of `_start`. -/
def startArg (satp : Nat) (bytes : Memory) (turns argv i : Nat) : Option String := do
  let strStart ← loadUsize satp bytes (usizeAdd argv (i * 8))
  let len ← findZero satp bytes strStart 0 turns
  let data ← (List.range len).mapM fun i => loadByte satp bytes (usizeAdd strStart i)
  fromUtf8 data

/-- `_start` up to `main`, which gets the arguments.  It writes to its heap and below the
stack pointer only. -/
def start (satp : Nat) (bytes : Memory) (turns argc argv : Nat) : Option (List String) :=
  (List.range argc).mapM fun i => startArg satp bytes turns argv i

/-! ## Reading the stack -/

theorem fromUtf8_asBytes (string : String) : fromUtf8 (asBytes string) = some string := by
  have hdata : (⟨(asBytes string).toArray⟩ : ByteArray) = string.toByteArray := by
    rw [asBytes, Array.toArray_toList]
  rw [fromUtf8, hdata, String.fromUTF8?, dif_pos string.isValidUTF8]
  rfl

/-- Loads between two addresses give the flat memory. -/
structure Loads (satp : Nat) (bytes : Memory) (low high : Nat) (flat : Bytes) : Prop where
  byte : ∀ va, low ≤ va → va < high → loadByte satp bytes va = some (flat va)
  word : ∀ va, low ≤ va → va + 8 ≤ high → va % 8 = 0 →
    loadUsize satp bytes va = some (leValue (fun i => flat (va + i)) 8)

theorem loads_of_started {L : Layout} {rest : List Nat} {args : List String} {new : NewSpace}
    {ustack trapCx : MapArea} {bytes : Memory} {flat : Bytes}
    (hready : new.Ready L rest ustack trapCx) (hstarted : Started L rest args new ustack bytes)
    (hshows : Shows (areaPhys ustack) new.ustackBottom (new.ustackBottom + 8192) bytes flat) :
    Loads new.process.memorySet.pageTable.token bytes new.ustackBottom
      (new.ustackBottom + 8192) flat := by
  have hperm : ustack.mapPerm = MapPermission.R ||| MapPermission.W ||| MapPermission.U := by
    have hrange := hready.range
    simp only [MapArea.range, Prod.mk.injEq] at hrange
    exact hrange.2.2
  have haddr : ∀ va, new.ustackBottom ≤ va → va < new.ustackBottom + 8192 →
      loadAddr new.process.memorySet.pageTable.token bytes va = some (areaPhys ustack va) := by
    intro va hlow hhigh
    obtain ⟨ppn, -, -, hlt, hphys, htranslate⟩ :=
      areaPhys_eq hstarted.inv hready.ustack_mem (hready.covers hlow hhigh)
    simp only [MemorySet.translate] at htranslate
    rw [loadAddr, PageTable.translate_fromToken (rootPpn_lt hstarted.inv), htranslate]
    simp only [do_some]
    rw [if_pos, ppn_new hlt, PhysPageNum.toPhysAddr_eq hlt, pageOffset_eq, hphys]
    rw [isValid_new hlt, flags_new hlt, hperm]
    decide
  refine ⟨fun va hlow hhigh => ?_, fun va hlow hhigh haligned => ?_⟩
  · rw [loadByte, haddr va hlow hhigh, Option.map_some, hshows va hlow hhigh]
  · have hbytes : ∀ i < 8, bytes (areaPhys ustack va + i) = flat (va + i) := by
      intro i hi
      rw [← hready.window.word va hlow hhigh haligned i hi]
      exact hshows _ (by omega) (by omega)
    rw [loadUsize, if_pos haligned, haddr va hlow (by omega), Option.map_some, Memory.readUsize,
      leValue_congr hbytes]

section Loads

variable {satp : Nat} {bytes : Memory} {low high : Nat} {flat : Bytes}

theorem findZero_eq (h : Loads satp bytes low high flat) (hhigh : high < 2 ^ 64)
    {data : List UInt8} {p : Nat} (hholds : HoldsBytes flat p (data ++ [0])) (hnul : 0 ∉ data)
    (hlow : low ≤ p) (hend : p + data.length < high) {i turns : Nat} (hi : i ≤ data.length)
    (hturns : data.length < i + turns) : findZero satp bytes p i turns = some data.length := by
  induction turns generalizing i with
  | zero => omega
  | succ turns ih =>
    have hbyte := hholds i (by rw [length_append, length_singleton]; omega)
    rw [findZero, usizeAdd_eq (by omega), h.byte (p + i) (by omega) (by omega), hbyte]
    simp only [do_some]
    by_cases hlt : i < data.length
    · rw [getElem_append_left hlt, if_neg, ih (by omega) (by omega)]
      exact fun hzero => hnul (hzero ▸ getElem_mem hlt)
    · obtain rfl : i = data.length := by omega
      rw [getElem_concat_length rfl, if_pos rfl]

theorem startArg_eq (h : Loads satp bytes low high flat) (hhigh : high < 2 ^ 64) {arg : String}
    {argv i ptr turns : Nat} (hnul : 0 ∉ asBytes arg)
    (hslot : HoldsWord flat (argv + 8 * i) ptr) (haligned : argv % 8 = 0)
    (hargv : low ≤ argv) (hargvEnd : argv + 8 * i + 8 ≤ high)
    (hholds : HoldsBytes flat ptr (asBytes arg ++ [0])) (hptr : low ≤ ptr)
    (hptrEnd : ptr + (asBytes arg).length < high) (hturns : (asBytes arg).length < turns) :
    startArg satp bytes turns argv i = some arg := by
  have hstrStart : loadUsize satp bytes (usizeAdd argv (i * 8)) = some ptr := by
    rw [usizeAdd_eq (by omega), Nat.mul_comm, h.word _ (by omega) hargvEnd (by omega),
      hslot.value (by omega)]
  have hlen : findZero satp bytes ptr 0 turns = some (asBytes arg).length :=
    findZero_eq h hhigh hholds hnul hptr hptrEnd (Nat.zero_le _) (by omega)
  have hdata := mapM_range (fun i => loadByte satp bytes (usizeAdd ptr i)) (asBytes arg)
    fun i hi => by
      have hbyte := hholds i (by rw [length_append]; omega)
      rw [usizeAdd_eq (by omega), h.byte _ (by omega) (by omega), hbyte, getElem_append_left hi]
  rw [startArg, hstrStart]
  simp only [Option.bind_eq_bind, Option.bind_some]
  rw [hlen, Option.bind_some, hdata, Option.bind_some, fromUtf8_asBytes]

end Loads

/-! ## From `exec` to `main` -/

/-- The array of pointers with its last word, and the strings with their zeros. -/
def argBlocks (argv : Nat) (ptrs : List Nat) (args : List String) : List Block :=
  ⟨argv, (args.length + 1) * 8⟩ :: blocks ptrs (args.map asBytes)

/-- The arguments are on the stack of the thread, which starts with the registers `sp`, `a0`
and `a1`. -/
structure PassesArgs (args : List String) (memorySet : MemorySet) (bytes : Memory)
    (res : TaskUserRes) (sp a0 a1 : Nat) (ptrs : List Nat) : Prop where
  /-- `_start` finds the arguments, with a turn for each byte of the stack. -/
  start : ∀ turns, userStackSize ≤ turns →
    start memorySet.pageTable.token bytes turns a0 a1 = some args
  argc : a0 = args.length
  /-- The array holds a pointer for each argument and ends with a null pointer. -/
  argv : ptrs.length = args.length ∧ ∀ i (h : i < (ptrs ++ [0]).length),
    loadUsize memorySet.pageTable.token bytes (a1 + 8 * i) = some (ptrs ++ [0])[i]
  apart : (argBlocks a1 ptrs args).Pairwise Block.Apart
  within : ∀ b ∈ argBlocks a1 ptrs args,
    b.Within (ustackBottomFromTid res.ustackBase res.tid) res.ustackTop ∧ sp ≤ b.start
  /-- All pages of the stack are mapped for the user. -/
  mapped : res.ustackTop = ustackBottomFromTid res.ustackBase res.tid + userStackSize ∧
    ∀ va, ustackBottomFromTid res.ustackBase res.tid ≤ va → va < res.ustackTop →
      ∃ pte, memorySet.translate bytes (page va) = some pte ∧
        pte.flags = PTEFlags.R ||| PTEFlags.W ||| PTEFlags.U ||| PTEFlags.V
  sp : sp % 8 = 0 ∧ ustackBottomFromTid res.ustackBase res.tid ≤ sp ∧ sp < res.ustackTop

theorem total_asBytes (args : List String) :
    total (args.map asBytes) = (args.map fun arg => arg.utf8ByteSize + 1).sum := by
  rw [total, map_map]
  rfl

/-- What the flat stack holds. -/
structure FlatArgs (args : List String) (argvBase : Nat) (flat : Bytes) : Prop where
  words : HoldsWords flat argvBase (pointers (args.map asBytes) argvBase ++ [0])
  texts : List.Forall₂ (fun ptr string => HoldsBytes flat ptr (string ++ [0]))
    (pointers (args.map asBytes) argvBase) (args.map asBytes)

theorem flatStack_holds {args : List String} {high : Nat}
    (hroom : (args.length + 1) * 8 + total (args.map asBytes) ≤ high) (flat : Bytes) :
    FlatArgs args (high - (args.length + 1) * 8) (flatStack high args flat) := by
  rw [flatStack]
  generalize hbase : high - (args.length + 1) * 8 = argvBase
  obtain ⟨hwords, htexts, houtside⟩ := pushStrings_pushed argvBase argvBase
    (putWord flat (argvBase + 8 * args.length) 0)
    (by omega : total (args.map asBytes) ≤ argvBase) (Nat.le_refl _)
  refine ⟨hwords.concat ?_, htexts⟩
  rw [length_pointers, length_map] at *
  exact (holdsWord_putWord _ _ _).congr fun i hi => houtside _ (by omega)

section Start

variable {satp : Nat} {bytes : Memory} {low high : Nat} {flat : Bytes} {args : List String}
  {argvBase : Nat}

theorem pointer_within (hroom : low + total (args.map asBytes) ≤ argvBase) {i : Nat}
    (hi : i < (pointers (args.map asBytes) argvBase).length) (hi' : i < args.length) :
    low ≤ (pointers (args.map asBytes) argvBase)[i] ∧
      (pointers (args.map asBytes) argvBase)[i] + (asBytes args[i]).length + 1 ≤ argvBase := by
  have hmap : i < (args.map asBytes).length := by rwa [length_map]
  have hlength : i < (blocks (pointers (args.map asBytes) argvBase) (args.map asBytes)).length := by
    rw [blocks, length_zipWith]
    omega
  obtain ⟨hlow, hhigh⟩ := blocks_within (by omega) _ (getElem_mem hlength)
  simp only [blocks, getElem_zipWith, getElem_map] at hlow hhigh
  exact ⟨by omega, by omega⟩

/-- The loop of `_start` over the arguments. -/
theorem start_eq (h : Loads satp bytes low high flat) (hhigh : high < 2 ^ 64)
    (hflat : FlatArgs args argvBase flat) (hnul : ∀ arg ∈ args, 0 ∉ asBytes arg)
    (haligned : argvBase % 8 = 0) (hroom : low + total (args.map asBytes) ≤ argvBase)
    (hend : argvBase + (args.length + 1) * 8 ≤ high) {turns : Nat} (hturns : high ≤ low + turns) :
    start satp bytes turns args.length argvBase = some args := by
  refine mapM_range _ args fun i hi => ?_
  obtain ⟨hlength, htexts⟩ := forall₂_iff_get.mp hflat.texts
  rw [length_map] at hlength
  have hptr : i < (pointers (args.map asBytes) argvBase).length := by omega
  have hslot := hflat.words i (by rw [length_append]; omega)
  rw [getElem_append_left hptr] at hslot
  have htext := htexts i hptr (by rwa [length_map])
  simp only [get_eq_getElem, getElem_map] at htext
  obtain ⟨hlow, hptrEnd⟩ := pointer_within hroom hptr hi
  exact startArg_eq h hhigh (hnul _ (getElem_mem hi)) hslot haligned (by omega) (by omega) htext
    hlow (by omega) (by omega)

theorem loadUsize_argv (h : Loads satp bytes low high flat) (hhigh : high < 2 ^ 64)
    (hflat : FlatArgs args argvBase flat) (haligned : argvBase % 8 = 0) (hlow : low ≤ argvBase)
    (hend : argvBase + (args.length + 1) * 8 ≤ high) {i : Nat}
    (hi : i < (pointers (args.map asBytes) argvBase ++ [0]).length) :
    loadUsize satp bytes (argvBase + 8 * i) =
      some (pointers (args.map asBytes) argvBase ++ [0])[i] := by
  have hcount : (pointers (args.map asBytes) argvBase ++ [0]).length = args.length + 1 := by
    rw [length_append, length_pointers, length_map, length_singleton]
  have hlt : (pointers (args.map asBytes) argvBase ++ [0])[i] < 2 ^ 64 := by
    rcases mem_append.mp (getElem_mem hi) with hmem | hmem
    · exact pointers_lt (by omega) _ hmem
    · rw [mem_singleton.mp hmem]
      decide
  rw [h.word _ (by omega) (by omega) (by omega), (hflat.words i hi).value hlt]

theorem argBlocks_apart (hroom : total (args.map asBytes) ≤ argvBase) :
    (argBlocks argvBase (pointers (args.map asBytes) argvBase) args).Pairwise Block.Apart := by
  rw [argBlocks, pairwise_cons]
  exact ⟨fun b hb => .inr (blocks_within hroom b hb).2, blocks_apart hroom⟩

end Start

/-- **The arguments of `exec` arrive.**  Whenever a program has been loaded and its main
thread has a user stack and a trap context, `exec` returns for all arguments without zero
bytes that fit on the stack together with their pointers.  The thread then starts with the
number of arguments and the address of the array in `a0` and `a1`, from which `_start`
reads exactly the arguments; the array ends with a null pointer; the array and the strings
are apart from each other, on the mapped user stack and not below the stack pointer, which
is aligned and on the stack. -/
theorem exec_passes_args {L : Layout} {before after : List MemorySet} {kernel : List Nat}
    {self : Exec.ProcessControlBlock} {platform : Platform} {elfData : List UInt8} {mem : PhysMem}
    {new : NewSpace}
    (hinv : SpacesInv L (before ++ self.memorySet :: after) mem kernel)
    (hstrampoline : platform.strampoline = L.strampoline)
    (hnew : self.replaceSpace platform elfData mem = some new) (args : List String)
    (hnul : ∀ arg ∈ args, 0 ∉ asBytes arg)
    (hfit : (args.length + 1) * 8 + (args.map fun arg => arg.utf8ByteSize + 1).sum ≤
      userStackSize) :
    ∃ process mem' task res ptrs, self.exec platform elfData args mem = some (process, mem') ∧
      process.tasks = [some task] ∧ task.res = some res ∧
      PassesArgs args process.memorySet mem'.bytes res (task.register mem'.bytes 2)
        (task.register mem'.bytes 10) (task.register mem'.bytes 11) ptrs := by
  obtain ⟨ustack, trapCx, hready⟩ := replaceSpace_ready hinv hstrampoline hnew
  rw [← total_asBytes] at hfit
  obtain ⟨bytes, hexec, hstarted⟩ := exec_eq hnew hready hfit
  rw [userStackSize] at hfit
  obtain ⟨flat, hshows⟩ := hstarted.shows
  have hloads := loads_of_started hready hstarted hshows
  have hflat := flatStack_holds (by omega : (args.length + 1) * 8 + total (args.map asBytes) ≤
    new.ustackBottom + 8192) flat
  have hbottom := hready.bottom_lt
  have haligned := hready.aligned
  have hsp := hstarted.sp
  have hargv := hstarted.argv
  generalize hbase : new.ustackBottom + 8192 - (args.length + 1) * 8 = argvBase at hflat hsp hargv
  refine ⟨_, _, new.task, new.res, pointers (args.map asBytes) argvBase, hexec, hready.tasks,
    hready.res, ?_⟩
  rw [hsp, hstarted.argc, hargv]
  refine ⟨fun turns hturns => ?_, rfl, ⟨?_, fun i hi => ?_⟩, ?_, fun b hb => ?_,
    ⟨hready.ustackTop_eq, fun va hlow hhigh => ?_⟩, ?_⟩
  · rw [userStackSize] at hturns
    exact start_eq hloads hbottom hflat hnul (by omega) (by omega) (by omega) (by omega)
  · rw [length_pointers, List.length_map]
  · exact loadUsize_argv hloads hbottom hflat (by omega) (by omega) (by omega) hi
  · exact argBlocks_apart (by omega)
  · rw [hready.ustackTop_eq]
    change b.Within new.ustackBottom _ ∧ _
    rcases List.mem_cons.mp hb with rfl | hb
    · rw [Block.Within]
      simp only
      omega
    · have hwithin := blocks_within (by omega) b hb
      rw [Block.Within] at hwithin ⊢
      omega
  · rw [hready.ustackTop_eq] at hhigh
    have hrange := hready.range
    simp only [MapArea.range, Prod.mk.injEq] at hrange
    obtain ⟨ppn, -, -, hlt, -, htranslate⟩ :=
      areaPhys_eq hstarted.inv hready.ustack_mem (hready.covers hlow hhigh)
    refine ⟨_, htranslate, ?_⟩
    rw [PageTableEntry.flags_new hlt, hrange.2.2]
    rfl
  · rw [hready.ustackTop_eq]
    change _ ∧ new.ustackBottom ≤ _ ∧ _
    omega

/-- A process with its main thread. -/
def mainProcess (ms : MemorySet) : Exec.ProcessControlBlock :=
  ⟨ms, [some ⟨0, some ⟨0, 4096⟩, 0⟩]⟩

/-- Every file is a program without segments. -/
def smallPlatform : Platform :=
  ⟨fun _ => some ⟨[], [], 0⟩, smallLayout.strampoline, 0, 0, 0⟩

/-- A program is executed with two arguments, in a process that has the frames for it. -/
theorem exec_passes_args_two : ∃ ms mem new,
    SpacesInv smallLayout ([] ++ (mainProcess ms).memorySet :: []) mem [] ∧
      (mainProcess ms).replaceSpace smallPlatform [] mem = some new ∧
      ∃ process mem' task res ptrs,
        (mainProcess ms).exec smallPlatform [] ["ls", "-l"] mem = some (process, mem') ∧
        process.tasks = [some task] ∧ task.res = some res ∧
        PassesArgs ["ls", "-l"] process.memorySet mem'.bytes res (task.register mem'.bytes 2)
          (task.register mem'.bytes 10) (task.register mem'.bytes 11) ptrs := by
  have hfacts : ((MemorySet.fromElf smallPlatform.parse smallLayout.strampoline
      ⟨fun _ => 7, ⟨100, 200, []⟩⟩ []).bind fun r₁ =>
        (TaskUserRes.allocUserRes ⟨0, 4096⟩ r₁.1.1 r₁.2).map fun r =>
          ((mainProcess r.1).replaceSpace smallPlatform [] r.2).isSome) = some true := by
    decide +kernel
  obtain ⟨⟨⟨ms₁, _⟩, mem₁⟩, hload, hfacts⟩ := Option.bind_eq_some_iff.mp hfacts
  obtain ⟨⟨ms, mem⟩, halloc, hfacts⟩ := Option.map_eq_some_iff.mp hfacts
  obtain ⟨new, hnew⟩ := Option.isSome_iff_exists.mp hfacts
  obtain ⟨ms₂, mem₂, hfirst, hsecond⟩ := TaskUserRes.allocUserRes_steps halloc
  have hloaded := (SpaceInv.of_fromElf owns_smallLayout hload).1
  have hinv := ((hloaded.step hfirst).1.step hsecond).1
  have hspaces : SpacesInv smallLayout ([] ++ (mainProcess ms).memorySet :: []) mem [] := by
    refine ⟨fun other hother => ?_, ?_⟩
    · rw [List.nil_append, List.mem_singleton] at hother
      rw [hother]
      exact hinv.ok
    · simpa [mainProcess] using hinv.owns
  exact ⟨ms, mem, new, hspaces, hnew,
    exec_passes_args hspaces rfl hnew ["ls", "-l"] (by decide) (by decide)⟩

end RCore.User
