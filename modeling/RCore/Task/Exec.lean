import RCore.Lib.ArgVector
import RCore.Mm.ManySpaces
import RCore.Syscall.UserAccess
import RCore.Task.KernelStack

/-!
# Executing a program

`exec` loads a program into a new space, gives the main thread its user stack there, and
pushes the arguments on it: first an array of pointers, below it the strings, each written
byte by byte through the page table of the new space.  The stack is seen here as flat
memory, and `exec` pushes on it what `RCore.Lib.ArgVector` describes.
-/

namespace RCore.Task.Exec

open RCore.Mm RCore.Lib.ArgVector RCore.Syscall Memory List Option MemorySet PageTableEntry
open VirtAddr (ofUsize floor ofUsize_eq toVirtPageNum)

variable {va : Nat} {elfData : List UInt8}

/-! ## The model -/

/-- `as_bytes` of a string. -/
def asBytes (string : String) : List UInt8 := string.toByteArray.data.toList

structure TrapContext where
  x : Fin 32 → Nat
  sstatus : Nat
  sepc : Nat
  kernelSatp : Nat
  kernelSp : Nat
  trapHandler : Nat

namespace TrapContext

def setX (self : TrapContext) (i : Fin 32) (v : Nat) : TrapContext :=
  { self with x := Function.update self.x i v }

def setSp (self : TrapContext) (sp : Nat) : TrapContext := self.setX 2 sp

/-- `sstatus` is what the register holds; its bit 8 is `SPP`, which becomes `User`. -/
def appInitContext (sstatus entry sp kernelSatp kernelSp trapHandler : Nat) : TrapContext :=
  let cx : TrapContext :=
    { x := fun _ => 0
      sstatus := sstatus &&& (2 ^ 64 - 1 - 2 ^ 8)
      sepc := entry
      kernelSatp := kernelSatp
      kernelSp := kernelSp
      trapHandler := trapHandler }
  cx.setSp sp

/-- The words of the context, as they lie in memory. -/
def words (self : TrapContext) : List Nat :=
  List.ofFn self.x ++
    [self.sstatus, self.sepc, self.kernelSatp, self.kernelSp, self.trapHandler]

end TrapContext

def writeWords (bytes : Memory) (pa : Nat) : List Nat → Memory
  | [] => bytes
  | w :: ws => writeWords (bytes.writeUsize pa w) (pa + 8) ws

structure TaskControlBlock where
  kstack : Nat
  res : Option TaskUserRes
  trapCxPpn : Nat

namespace TaskControlBlock

/-- `*get_trap_cx() = cx` -/
def setTrapCx (self : TaskControlBlock) (bytes : Memory) (cx : TrapContext) : Option Memory := do
  let pa ← getRef (PhysPageNum.toPhysAddr self.trapCxPpn)
  some (writeWords bytes pa cx.words)

/-- What `__restore` loads into a register. -/
def register (self : TaskControlBlock) (bytes : Memory) (i : Fin 32) : Nat :=
  bytes.readUsize (PhysPageNum.toPhysAddr self.trapCxPpn + 8 * i)

end TaskControlBlock

structure ProcessControlBlock where
  memorySet : MemorySet
  tasks : List (Option TaskControlBlock)

/-- What `exec` gets from elsewhere: the ELF parser, the address of the trampoline, the
register `sstatus`, the token of the kernel space and the address of `trap_handler`. -/
structure Platform where
  parse : List UInt8 → Option ElfFile
  strampoline : Nat
  sstatus : Nat
  kernelSatp : Nat
  trapHandler : Nat

/-- What the first half of `exec` leaves: the process in its new space, its main thread and
the resources of the thread. -/
structure NewSpace where
  process : ProcessControlBlock
  task : TaskControlBlock
  res : TaskUserRes
  newToken : Nat
  entryPoint : Nat
  mem : PhysMem

namespace ProcessControlBlock

def threadCount (self : ProcessControlBlock) : Nat := self.tasks.length

def getTask (self : ProcessControlBlock) (tid : Nat) : Option TaskControlBlock :=
  self.tasks[tid]?.join

/-- `exec` up to the arguments. -/
def replaceSpace (self : ProcessControlBlock) (platform : Platform) (elfData : List UInt8)
    (mem : PhysMem) : Option NewSpace := do
  if self.threadCount ≠ 1 then none else
  let ((memorySet, ustackBase, entryPoint), mem) ←
    MemorySet.fromElf platform.parse platform.strampoline mem elfData
  let newToken := memorySet.pageTable.token
  -- the old space is dropped when the new one takes its place
  let mem ← self.memorySet.drop mem
  let task ← self.getTask 0
  let res ← task.res
  let res := { res with ustackBase := ustackBase }
  let (memorySet, mem) ← res.allocUserRes memorySet mem
  let trapCxPpn ← res.trapCxPpn memorySet mem.bytes
  let task := { task with res := some res, trapCxPpn := trapCxPpn }
  some ⟨⟨memorySet, self.tasks.set 0 (some task)⟩, task, res, newToken, entryPoint, mem⟩

end ProcessControlBlock

/-- The loop over the bytes of an argument, with where it stops. -/
def pushBytes (newToken : Nat) : List UInt8 → Nat → Memory → Option (Nat × Memory)
  | [], p, bytes => some (p, bytes)
  | c :: cs, p, bytes => do
      let pa ← translatedRefmut newToken bytes p
      pushBytes newToken cs (usizeAdd p 1) (Function.update bytes pa c)

/-- The loop over the arguments from the `i`-th on; `argv` are the references to the slots. -/
def pushArgs (newToken : Nat) (argv : List Nat) :
    List String → Nat → Nat → Memory → Option (Nat × Memory)
  | [], _, userSp, bytes => some (userSp, bytes)
  | arg :: args, i, userSp, bytes => do
      let userSp := usizeSub userSp (arg.utf8ByteSize + 1)
      let slot ← argv[i]?
      let bytes := bytes.writeUsize slot userSp
      let (p, bytes) ← pushBytes newToken (asBytes arg) userSp bytes
      let pa ← translatedRefmut newToken bytes p
      pushArgs newToken argv args (i + 1) userSp (Function.update bytes pa 0)

/-- The arguments go on the user stack: `argv_base`, the stack pointer below them, and
memory. -/
def pushArguments (newToken ustackTop : Nat) (args : List String) (bytes : Memory) :
    Option (Nat × Nat × Memory) := do
  let argvBase := usizeSub ustackTop ((args.length + 1) * 8)
  let argv ← (List.range (args.length + 1)).mapM fun arg =>
    translatedRefmut newToken bytes (usizeAdd argvBase (arg * 8))
  let last ← argv[args.length]?
  let (userSp, bytes) ← pushArgs newToken argv args 0 argvBase (bytes.writeUsize last 0)
  some (argvBase, usizeSub userSp (userSp % 8), bytes)

def ProcessControlBlock.exec (self : ProcessControlBlock) (platform : Platform)
    (elfData : List UInt8) (args : List String) (mem : PhysMem) :
    Option (ProcessControlBlock × PhysMem) := do
  let new ← self.replaceSpace platform elfData mem
  let (argvBase, userSp, bytes) ← pushArguments new.newToken new.res.ustackTop args new.mem.bytes
  let trapCx := TrapContext.appInitContext platform.sstatus new.entryPoint userSp
    platform.kernelSatp (kernelStackPosition new.task.kstack).2 platform.trapHandler
  let trapCx := (trapCx.setX 10 args.length).setX 11 argvBase
  let bytes ← new.task.setTrapCx bytes trapCx
  some (new.process, { new.mem with bytes := bytes })

/-! ## The stack as flat memory -/

/-- The addresses from `low` to `high` stand for bytes of the given frames, whatever these
frames hold; words are not torn apart. -/
structure Window (token low high : Nat) (phys : Nat → Nat) (frames : List Nat) (bytes : Memory) :
    Prop where
  refmut : ∀ bytes', SameOutside frames bytes bytes' → ∀ va, low ≤ va → va < high →
    translatedRefmut token bytes' va = some (phys va)
  owned : ∀ va, low ≤ va → va < high → phys va / 4096 ∈ frames
  inj : ∀ va va', low ≤ va → va < high → low ≤ va' → va' < high → phys va = phys va' → va = va'
  word : ∀ va, low ≤ va → va + 8 ≤ high → va % 8 = 0 → ∀ i < 8, phys (va + i) = phys va + i
  high_lt : high < 2 ^ 64
  low_aligned : low % 8 = 0
  high_aligned : high % 8 = 0

/-- The stack holds the flat memory, and outside of its frames nothing has changed. -/
structure Holds (low high : Nat) (phys : Nat → Nat) (frames : List Nat) (bytes bytes' : Memory)
    (flat : Bytes) : Prop where
  same : SameOutside frames bytes bytes'
  shows : Shows phys low high bytes' flat

section Window

variable {token low high : Nat} {phys : Nat → Nat} {frames : List Nat} {bytes bytes' : Memory}
  {flat : Bytes}

theorem writeUsize_eq_putWord (m : Memory) (pa v : Nat) : m.writeUsize pa v = putWord m pa v := by
  unfold Memory.writeUsize putWord
  rfl

theorem Holds.byte (hholds : Holds low high phys frames bytes bytes' flat)
    (h : Window token low high phys frames bytes) (va : Nat) (hlow : low ≤ va) (hhigh : va < high)
    (c : UInt8) :
    Holds low high phys frames bytes (Function.update bytes' (phys va) c)
      (Function.update flat va c) := by
  refine ⟨fun x hx => ?_, hholds.shows.update h.inj hlow hhigh c⟩
  rw [Function.update_of_ne, hholds.same x hx]
  rintro rfl
  exact hx (h.owned va hlow hhigh)

theorem Holds.word (hholds : Holds low high phys frames bytes bytes' flat)
    (h : Window token low high phys frames bytes) (va : Nat) (hlow : low ≤ va)
    (hhigh : va + 8 ≤ high) (haligned : va % 8 = 0) (v : Nat) :
    Holds low high phys frames bytes (bytes'.writeUsize (phys va) v) (putWord flat va v) := by
  have hword := h.word va hlow hhigh haligned
  rw [writeUsize_eq_putWord]
  refine ⟨fun x hx => ?_, hholds.shows.putWord h.inj hlow hhigh hword v⟩
  rw [putWord_outside, hholds.same x hx]
  by_contra hin
  have hphys := hword (x - phys va) (by omega)
  rw [(by omega : phys va + (x - phys va) = x)] at hphys
  rw [← hphys] at hx
  exact hx (h.owned _ (by omega) (by omega))

theorem pushBytes_eq (h : Window token low high phys frames bytes) (data : List UInt8) (p : Nat)
    (hlow : low ≤ p) (hhigh : p + data.length ≤ high)
    (hholds : Holds low high phys frames bytes bytes' flat) :
    ∃ bytes'', pushBytes token data p bytes' = some (p + data.length, bytes'') ∧
      Holds low high phys frames bytes bytes'' (putBytes flat p data) := by
  induction data generalizing p bytes' flat with
  | nil => exact ⟨bytes', rfl, hholds⟩
  | cons c cs ih =>
    have hhighest := h.high_lt
    rw [length_cons] at hhigh
    obtain ⟨bytes'', hpush, hholds'⟩ := ih (p + 1) (by omega) (by omega)
      (hholds.byte h p hlow (by omega) c)
    refine ⟨bytes'', ?_, hholds'⟩
    rw [pushBytes, h.refmut bytes' hholds.same p hlow (by omega), usizeAdd_eq (by omega)]
    change pushBytes token cs (p + 1) _ = _
    rw [hpush, length_cons, Nat.add_right_comm, Nat.add_assoc]

theorem length_asBytes (arg : String) : (asBytes arg).length = arg.utf8ByteSize :=
  rfl

/-- The loop pushes the strings. -/
theorem pushArgs_eq (h : Window token low high phys frames bytes) {argvBase n : Nat}
    {argv : List Nat} (haligned : argvBase % 8 = 0) (hend : argvBase + 8 * n ≤ high)
    (hargv : ∀ j < n, argv[j]? = some (phys (argvBase + 8 * j))) (args : List String) (i sp : Nat)
    (hi : i + args.length ≤ n) (hlow : low + total (args.map asBytes) ≤ sp) (hsp : sp ≤ argvBase)
    (hholds : Holds low high phys frames bytes bytes' flat) :
    ∃ bytes'', pushArgs token argv args i sp bytes' =
        some (sp - total (args.map asBytes), bytes'') ∧
      Holds low high phys frames bytes bytes''
        (pushStrings (args.map asBytes) (argvBase + 8 * i) sp flat) := by
  induction args generalizing i sp bytes' flat with
  | nil => exact ⟨bytes', rfl, hholds⟩
  | cons arg args ih =>
    have hhighest := h.high_lt
    rw [map_cons, total_cons, length_asBytes] at hlow
    rw [length_cons] at hi
    -- the slot, the bytes and the zero of this argument
    have hslot := hholds.word h (argvBase + 8 * i) (by omega) (by omega) (by omega)
      (sp - (arg.utf8ByteSize + 1))
    have hlength := length_asBytes arg
    obtain ⟨bytes₁, hpush, hbytes⟩ := pushBytes_eq h (asBytes arg)
      (sp - (arg.utf8ByteSize + 1)) (by omega) (by omega) hslot
    have href := h.refmut bytes₁ hbytes.same (sp - (arg.utf8ByteSize + 1) + (asBytes arg).length)
      (by omega) (by omega)
    have hzero := hbytes.byte h (sp - (arg.utf8ByteSize + 1) + (asBytes arg).length)
      (by omega) (by omega) 0
    obtain ⟨bytes₂, hrest, hholds₂⟩ := ih (i + 1) (sp - (arg.utf8ByteSize + 1))
      (by omega) (by omega) (by omega) hzero
    refine ⟨bytes₂, ?_, ?_⟩
    · rw [pushArgs, usizeSub_eq (by omega) (by omega), hargv i (by omega)]
      simp only [bind_eq_bind, bind_some]
      rw [hpush]
      simp only [bind_some]
      rw [href, bind_some, hrest, map_cons, total_cons, hlength, Nat.sub_sub]
    · rw [← putBytes_concat] at hholds₂
      exact hholds₂

/-- The stack after the arguments have been pushed from `high` on. -/
def flatStack (high : Nat) (args : List String) (flat : Bytes) : Bytes :=
  let argvBase := high - (args.length + 1) * 8
  pushStrings (args.map asBytes) argvBase argvBase (putWord flat (argvBase + 8 * args.length) 0)

theorem pushArguments_eq (h : Window token low high phys frames bytes) {args : List String}
    (hroom : low + (args.length + 1) * 8 + total (args.map asBytes) ≤ high) :
    ∃ bytes', pushArguments token high args bytes =
        some (high - (args.length + 1) * 8,
          (high - (args.length + 1) * 8 - total (args.map asBytes)) / 8 * 8, bytes') ∧
      Holds low high phys frames bytes bytes'
        (flatStack high args fun va => bytes (phys va)) := by
  have hhighest := h.high_lt
  have haligned := h.high_aligned
  generalize hbase : high - (args.length + 1) * 8 = argvBase
  have hargv : (List.range (args.length + 1)).mapM
      (fun arg => translatedRefmut token bytes (usizeAdd argvBase (arg * 8))) =
        some (List.ofFn fun arg : Fin (args.length + 1) => phys (argvBase + 8 * arg)) := by
    have hread := mapM_range
      (fun arg => translatedRefmut token bytes (usizeAdd argvBase (arg * 8)))
      (List.ofFn fun arg : Fin (args.length + 1) => phys (argvBase + 8 * arg))
      fun arg harg => by
        rw [List.length_ofFn] at harg
        rw [List.getElem_ofFn, usizeAdd_eq (by omega), Nat.mul_comm arg]
        exact h.refmut bytes (.refl _ _) _ (by omega) (by omega)
    rwa [List.length_ofFn] at hread
  have hget : ∀ j < args.length + 1,
      (List.ofFn fun arg : Fin (args.length + 1) => phys (argvBase + 8 * arg))[j]? =
        some (phys (argvBase + 8 * j)) := by
    intro j hj
    rw [List.getElem?_ofFn, dif_pos hj]
  have hfirst : Holds low high phys frames bytes bytes fun va => bytes (phys va) :=
    ⟨.refl _ _, fun _ _ _ => rfl⟩
  have hlast := hfirst.word h (argvBase + 8 * args.length) (by omega) (by omega) (by omega) 0
  obtain ⟨bytes', hpush, hholds⟩ := pushArgs_eq h (by omega) (by omega) hget args 0 argvBase
    (by omega) (by omega) (Nat.le_refl _) hlast
  refine ⟨bytes', ?_, by rw [flatStack, hbase]; exact hholds⟩
  rw [pushArguments, usizeSub_eq (by omega) (by omega), hbase, hargv]
  simp only [bind_eq_bind, bind_some]
  rw [hget args.length (Nat.lt_succ_self _), bind_some, hpush, bind_some,
    usizeSub_eq (Nat.mod_le _ _) (by omega)]
  congr 3
  omega

end Window

/-! ## The trap context -/

section TrapContext

variable {bytes : Memory} {pa : Nat} {words : List Nat}

theorem writeWords_outside {x : Nat} (h : x < pa ∨ pa + 8 * words.length ≤ x) :
    writeWords bytes pa words x = bytes x := by
  induction words generalizing bytes pa with
  | nil => rfl
  | cons w ws ih =>
    rw [length_cons] at h
    rw [writeWords, ih (by omega), writeUsize_eq_putWord, putWord_outside (by omega)]

theorem readUsize_writeWords {i v : Nat} (hget : words[i]? = some v) (hv : v < 2 ^ 64) :
    (writeWords bytes pa words).readUsize (pa + 8 * i) = v := by
  induction words generalizing bytes pa i with
  | nil => simp at hget
  | cons w ws ih =>
    cases i with
    | zero =>
      obtain rfl : w = v := Option.some.inj hget
      have hkept : (writeWords (bytes.writeUsize pa w) (pa + 8) ws).readUsize pa =
          (bytes.writeUsize pa w).readUsize pa :=
        readUsize_congr fun j hj => writeWords_outside (by omega)
      exact hkept.trans (readUsize_writeUsize_self bytes pa hv)
    | succ i =>
      rw [writeWords, (by omega : pa + 8 * (i + 1) = pa + 8 + 8 * i)]
      exact ih hget

theorem length_words (cx : TrapContext) : cx.words.length = 37 := by
  simp [TrapContext.words]

theorem getElem?_words (cx : TrapContext) (i : Fin 32) : cx.words[i.val]? = some (cx.x i) := by
  have hlength : i.val < (List.ofFn cx.x).length := by
    rw [List.length_ofFn]
    exact i.isLt
  rw [TrapContext.words, List.getElem?_append_left hlength, List.getElem?_ofFn, dif_pos i.isLt]

theorem setTrapCx_eq {task : TaskControlBlock} (hpos : 0 < task.trapCxPpn)
    (hlt : task.trapCxPpn < 2 ^ 44) (bytes : Memory) (cx : TrapContext) :
    ∃ bytes', task.setTrapCx bytes cx = some bytes' ∧
      SameOutside [task.trapCxPpn] bytes bytes' ∧
      ∀ i, cx.x i < 2 ^ 64 → task.register bytes' i = cx.x i := by
  have hpa := PhysPageNum.toPhysAddr_eq hlt
  refine ⟨writeWords bytes (4096 * task.trapCxPpn) cx.words, ?_, fun x hx => ?_, fun i hi => ?_⟩
  · rw [TaskControlBlock.setTrapCx, hpa, getRef, if_neg (by omega)]
    rfl
  · rw [mem_singleton] at hx
    refine writeWords_outside ?_
    rw [length_words]
    omega
  · rw [TaskControlBlock.register, hpa]
    exact readUsize_writeWords (getElem?_words cx i) hi

end TrapContext

/-! ## The new space -/

variable {self : ProcessControlBlock} {platform : Platform}

section NewSpace

variable {L : Layout} {ms : MemorySet} {s : PhysMem} {rest : List Nat} {area : MapArea}
  {low high : Nat}

/-- Where the bytes of an area lie. -/
def areaPhys (area : MapArea) (va : Nat) : Nat :=
  4096 * (area.dataFrames.lookup (page va)).getD 0 + va % 4096

theorem areaPhys_eq (h : SpaceInv L ms s rest) (hmem : area ∈ ms.areas)
    (hcovers : area.Covers (page va)) :
    ∃ ppn, area.dataFrames.lookup (page va) = some ppn ∧ ppn ∈ area.frames ∧ ppn < 2 ^ 44 ∧
      areaPhys area va = 4096 * ppn + va % 4096 ∧
      ms.translate s.bytes (page va) =
        some (new ppn (area.mapPerm ||| PTEFlags.V)) := by
  obtain ⟨ppn, hlookup, hppn, hlt, htranslate⟩ := h.translate_of_covers hmem hcovers
  refine ⟨ppn, hlookup, hppn, hlt, ?_, htranslate⟩
  rw [areaPhys, hlookup, getD_some]

theorem low_pos (L : Layout) : 0 < L.low := by
  have hbelow := L.below
  omega

theorem areaPhys_inj (h : SpaceInv L ms s rest) (hmem : area ∈ ms.areas) {va' : Nat}
    (hcovers : area.Covers (page va)) (hcovers' : area.Covers (page va'))
    (heq : areaPhys area va = areaPhys area va') : ofUsize va = ofUsize va' := by
  obtain ⟨ppn, hlookup, -, -, hphys, -⟩ := areaPhys_eq h hmem hcovers
  obtain ⟨ppn', hlookup', -, -, hphys', -⟩ := areaPhys_eq h hmem hcovers'
  have hsame : ppn = ppn' := by omega
  rw [← hsame] at hlookup'
  have hpage := MapArea.lookup_inj (h.nodup_area hmem) hlookup hlookup'
  simp only [page_eq, ofUsize_eq] at hpage ⊢
  omega

theorem translatedRefmut_of_covers (h : SpaceInv L ms s rest) (hmem : area ∈ ms.areas)
    (hcovers : area.Covers (page va)) {bytes : Memory}
    (hsame : SameOutside area.frames s.bytes bytes) :
    translatedRefmut ms.pageTable.token bytes va = some (areaPhys area va) := by
  have hinv : SpaceInv L ms { s with bytes := bytes } rest :=
    h.write (hsame.mono fun _ hp => mem_targets hmem hp)
  obtain ⟨ppn, -, hppn, hlt, hphys, htranslate⟩ := areaPhys_eq hinv hmem hcovers
  have hlow := (h.owns.mem_range (mem_append_left _ (mem_frames hmem hppn))).1
  have hpos := low_pos L
  have hvalue := translatedValue_eq hinv htranslate
  rw [ppn_new hlt] at hvalue
  rw [hphys]
  exact hvalue (by omega)

theorem window_of_area (h : SpaceInv L ms s rest) (hmem : area ∈ ms.areas)
    (hcovers : ∀ va, low ≤ va → va < high → area.Covers (page va))
    (hsize : high ≤ low + 2 ^ 39) (hhigh : high < 2 ^ 64) (hlowAligned : low % 8 = 0)
    (hhighAligned : high % 8 = 0) :
    Window ms.pageTable.token low high (areaPhys area) area.frames s.bytes where
  refmut bytes hsame va hlow hva := translatedRefmut_of_covers h hmem (hcovers va hlow hva) hsame
  owned va hlow hva := by
    obtain ⟨ppn, -, hppn, -, hphys, -⟩ := areaPhys_eq h hmem (hcovers va hlow hva)
    rw [hphys, (by omega : (4096 * ppn + va % 4096) / 4096 = ppn)]
    exact hppn
  inj va va' hlow hva hlow' hva' heq := by
    have hsame := areaPhys_inj h hmem (hcovers va hlow hva) (hcovers va' hlow' hva') heq
    simp only [ofUsize_eq] at hsame
    omega
  word va hlow hva haligned i hi := by
    have hpage : page (va + i) = page va := by
      simp only [page_eq, ofUsize_eq]
      omega
    rw [areaPhys, areaPhys, hpage]
    omega
  high_lt := hhigh
  low_aligned := hlowAligned
  high_aligned := hhighAligned

namespace NewSpace

def ustackBottom (new : NewSpace) : Nat := ustackBottomFromTid new.res.ustackBase new.res.tid

/-- The main thread has its stack and its trap context in the new space. -/
structure Ready (L : Layout) (rest : List Nat) (new : NewSpace) (ustack trapCx : MapArea) :
    Prop where
  inv : SpaceInv L new.process.memorySet new.mem rest
  areas : ∃ areas, new.process.memorySet.areas = areas ++ [ustack, trapCx]
  newToken : new.newToken = new.process.memorySet.pageTable.token
  tasks : new.process.tasks = [some new.task]
  res : new.task.res = some new.res
  aligned : new.ustackBottom % 4096 = 0
  room : VirtAddr.ofUsize new.ustackBottom + 8192 < 2 ^ 39
  range : ustack.range = (VirtAddr.ofUsize new.ustackBottom / 4096,
    VirtAddr.ofUsize new.ustackBottom / 4096 + 2,
    MapPermission.R ||| MapPermission.W ||| MapPermission.U)
  trapCxPpn : new.task.trapCxPpn ∈ trapCx.frames

end NewSpace

theorem ustackBottomFromTid_aligned {ustackBase : Nat} (h : ustackBase % 4096 = 0) (tid : Nat) :
    ustackBottomFromTid ustackBase tid % 4096 = 0 := by
  rw [ustackBottomFromTid, usizeAdd, pageSize, userStackSize]
  omega

theorem trapCxPpn_mem (h : SpaceInv L ms s rest) (hmem : area ∈ ms.areas) {res : TaskUserRes}
    (hrange : res.trapCxArea.map MapArea.range = some area.range) {ppn : Nat}
    (hppn : res.trapCxPpn ms s.bytes = some ppn) : ppn ∈ area.frames := by
  simp only [TaskUserRes.trapCxPpn, toVirtPageNum, do_eq_some_iff,
    ite_none_right_eq_some, Option.some.injEq] at hppn
  obtain ⟨_, ⟨-, rfl⟩, pte, hpte, rfl⟩ := hppn
  have hcovers : area.Covers (floor (ofUsize (trapCxBottomFromTid res.tid))) := by
    have heq := TaskUserRes.trapCxArea_range hrange
    simp only [MapArea.range, Prod.mk.injEq] at heq
    rw [floor, pageFloor_eq, MapArea.Covers]
    omega
  obtain ⟨ppn, -, hmemFrames, hlt, htranslate⟩ := h.translate_of_covers hmem hcovers
  cases hpte.symm.trans htranslate
  rwa [ppn_new hlt]

/-- What `exec` has done when it comes to the arguments. -/
theorem replaceSpace_ready {before after : List MemorySet} {kernel : List Nat} {new : NewSpace}
    (hinv : SpacesInv L (before ++ self.memorySet :: after) s kernel)
    (hstrampoline : platform.strampoline = L.strampoline)
    (h : self.replaceSpace platform elfData s = some new) :
    ∃ ustack trapCx,
      new.Ready L ((before ++ after).flatMap frames ++ kernel) ustack trapCx := by
  simp only [ProcessControlBlock.replaceSpace, ProcessControlBlock.threadCount,
    ProcessControlBlock.getTask, hstrampoline, ite_none_left_eq_some, do_eq_some_iff,
    Option.some.injEq, ne_eq, not_not] at h
  obtain ⟨hcount, ⟨⟨ms₁, base, entry⟩, s₁⟩, hload, s₂, hdrop, task, -, res, -, ⟨ms₂, s₃⟩, halloc,
    ppn, hppn, rfl⟩ := h
  simp only at halloc hppn
  have hspaces := hinv.replace hload hdrop
  obtain ⟨ustack, trapCx, hspace, hareas, hroot, hustack, htrapCx⟩ :=
    TaskUserRes.allocUserRes_spec hspaces.space halloc
  have haligned := ustackBottomFromTid_aligned (fromElf_base_aligned hload) res.tid
  obtain ⟨hroom, hrange⟩ := TaskUserRes.ustackArea_range haligned hustack
  refine ⟨ustack, trapCx, hspace, ⟨_, hareas⟩, ?_, ?_, rfl, haligned, hroom, hrange, ?_⟩
  · simp only [PageTable.token, hroot]
  · obtain ⟨old, htasks⟩ := length_eq_one_iff.mp hcount
    rw [htasks]
    rfl
  · exact trapCxPpn_mem hspace (by simp [hareas]) htrapCx hppn

namespace NewSpace.Ready

variable {new : NewSpace} {ustack trapCx : MapArea}

theorem ustack_mem (h : new.Ready L rest ustack trapCx) :
    ustack ∈ new.process.memorySet.areas := by
  obtain ⟨areas, hareas⟩ := h.areas
  simp [hareas]

theorem trapCx_mem (h : new.Ready L rest ustack trapCx) :
    trapCx ∈ new.process.memorySet.areas := by
  obtain ⟨areas, hareas⟩ := h.areas
  simp [hareas]

theorem bottom_lt (h : new.Ready L rest ustack trapCx) : new.ustackBottom + 8192 < 2 ^ 64 := by
  have hroom := h.room
  have hlt : new.ustackBottom < 2 ^ 64 := Nat.mod_lt _ (by decide)
  rw [ofUsize_eq] at hroom
  omega

theorem ustackTop_eq (h : new.Ready L rest ustack trapCx) :
    new.res.ustackTop = new.ustackBottom + 8192 :=
  usizeAdd_eq h.bottom_lt

theorem covers (h : new.Ready L rest ustack trapCx) (hlow : new.ustackBottom ≤ va)
    (hhigh : va < new.ustackBottom + 8192) : ustack.Covers (page va) := by
  have haligned := h.aligned
  have hroom := h.room
  have hrange := h.range
  simp only [MapArea.range, Prod.mk.injEq] at hrange
  rw [MapArea.Covers, hrange.1, hrange.2.1, page_eq]
  simp only [ofUsize_eq] at hroom ⊢
  omega

theorem window (h : new.Ready L rest ustack trapCx) :
    Window new.newToken new.ustackBottom (new.ustackBottom + 8192) (areaPhys ustack) ustack.frames
      new.mem.bytes := by
  have haligned := h.aligned
  rw [h.newToken]
  exact window_of_area h.inv h.ustack_mem (fun va hlow hhigh => h.covers hlow hhigh) (by omega)
    h.bottom_lt (by omega) (by omega)

theorem notMem_ustack (h : new.Ready L rest ustack trapCx) :
    new.task.trapCxPpn ∉ ustack.frames := by
  obtain ⟨areas, hareas⟩ := h.areas
  have hframes := (nodup_append.mp h.inv.owns.nodup).1
  have hdata := (nodup_append.mp hframes).2.1
  rw [dataFrames, hareas, flatMap_append] at hdata
  have hpair := (nodup_append.mp hdata).2.1
  simp only [flatMap_cons, flatMap_nil, append_nil] at hpair
  intro hmem
  exact (nodup_append.mp hpair).2.2 _ hmem _ h.trapCxPpn rfl

theorem trapCxPpn_range (h : new.Ready L rest ustack trapCx) :
    0 < new.task.trapCxPpn ∧ new.task.trapCxPpn < 2 ^ 44 := by
  have hmem := mem_append_left rest (mem_frames h.trapCx_mem h.trapCxPpn)
  have hlow := (h.inv.owns.mem_range hmem).1
  have hpos := low_pos L
  exact ⟨by omega, h.inv.owns.lt hmem⟩

end NewSpace.Ready

end NewSpace

/-! ## What `exec` leaves -/

/-- The main thread starts with the arguments on its stack. -/
structure Started (L : Layout) (rest : List Nat) (args : List String) (new : NewSpace)
    (ustack : MapArea) (bytes : Memory) : Prop where
  inv : SpaceInv L new.process.memorySet { new.mem with bytes := bytes } rest
  shows : ∃ flat, Shows (areaPhys ustack) new.ustackBottom (new.ustackBottom + 8192) bytes
    (flatStack (new.ustackBottom + 8192) args flat)
  sp : new.task.register bytes 2 = (new.ustackBottom + 8192 - (args.length + 1) * 8 -
    total (args.map asBytes)) / 8 * 8
  argc : new.task.register bytes 10 = args.length
  argv : new.task.register bytes 11 = new.ustackBottom + 8192 - (args.length + 1) * 8

/-- `exec` returns if the program has been loaded and there is room for the arguments. -/
theorem exec_eq {L : Layout} {rest : List Nat} {s : PhysMem} {new : NewSpace}
    {ustack trapCx : MapArea} (hnew : self.replaceSpace platform elfData s = some new)
    (hready : new.Ready L rest ustack trapCx) {args : List String}
    (hroom : (args.length + 1) * 8 + total (args.map asBytes) ≤ userStackSize) :
    ∃ bytes, self.exec platform elfData args s =
        some (new.process, { new.mem with bytes := bytes }) ∧
      Started L rest args new ustack bytes := by
  have hbottom := hready.bottom_lt
  rw [userStackSize] at hroom
  obtain ⟨bytes₁, hpush, hsame, hshows⟩ :=
    pushArguments_eq hready.window (by omega : new.ustackBottom + (args.length + 1) * 8 +
      total (args.map asBytes) ≤ new.ustackBottom + 8192)
  generalize hargvBase : new.ustackBottom + 8192 - (args.length + 1) * 8 = argvBase at hpush
  generalize hsp : (argvBase - total (args.map asBytes)) / 8 * 8 = sp at hpush
  obtain ⟨hpos, hlt⟩ := hready.trapCxPpn_range
  obtain ⟨bytes₂, hset, hframe, hregister⟩ := setTrapCx_eq hpos hlt bytes₁
    (((TrapContext.appInitContext platform.sstatus new.entryPoint sp platform.kernelSatp
      (kernelStackPosition new.task.kstack).2 platform.trapHandler).setX 10 args.length).setX 11
        argvBase)
  have htargets : SameOutside (new.process.memorySet.targets L) new.mem.bytes bytes₂ := by
    have hfirst := hsame.mono fun p hp => mem_targets (L := L) hready.ustack_mem hp
    refine hfirst.trans (hframe.mono fun p hp => ?_) (Subset.refl _)
    rw [mem_singleton.mp hp]
    exact mem_targets hready.trapCx_mem hready.trapCxPpn
  have hshows₂ : Shows (areaPhys ustack) new.ustackBottom (new.ustackBottom + 8192) bytes₂
      (flatStack (new.ustackBottom + 8192) args fun va => new.mem.bytes (areaPhys ustack va)) := by
    intro va hlow hhigh
    rw [← hshows va hlow hhigh]
    refine hframe _ fun hmem => hready.notMem_ustack ?_
    rw [← mem_singleton.mp hmem]
    exact hready.window.owned va hlow hhigh
  refine ⟨bytes₂, ?_, hready.inv.write htargets, ⟨_, hshows₂⟩, ?_, ?_, ?_⟩
  · rw [ProcessControlBlock.exec, hnew]
    simp only [bind_eq_bind, bind_some]
    rw [hready.ustackTop_eq, hpush]
    simp only [bind_some]
    rw [hset]
    rfl
  · rw [hargvBase, hsp]
    exact hregister 2 (by change sp < 2 ^ 64; omega)
  · exact hregister 10 (by change args.length < 2 ^ 64; omega)
  · rw [hargvBase]
    exact hregister 11 (by change argvBase < 2 ^ 64; omega)

end RCore.Task.Exec
