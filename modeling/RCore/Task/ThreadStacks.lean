import RCore.Mm.ElfImage
import RCore.Task.Id
import RCore.Task.UserRes

/-!
# Stacks of threads

The user stacks of the threads of a process are placed upwards from the base above its
program, their trap contexts downwards from the trampoline, both by the identifier of the
thread.  Identifiers and areas come and go with the threads; this module follows them over
every order of creations and exits.
-/

namespace RCore.Task

open RCore.Mm RCore.Lib.Outcome List Option MapArea
open MemorySet (fromElf fromElfLoop)
open VirtAddr (ofUsize floor ofUsize_lt ofUsize_of_lt toVirtPageNum toVirtPageNum_mul)
open TaskUserRes (allocUserRes deallocUserRes trapCxArea_eq ustackArea_eq)

/-- What a process has of its threads: the space with their areas, the allocator of their
identifiers, the length of `tasks` and the identifiers of the threads that have not exited.
All threads of a process have one `ustack_base`. -/
structure ThreadSpace where
  memorySet : MemorySet
  taskResAllocator : RecycleAllocator
  threadCount : Nat
  ustackBase : Nat
  live : List Nat
  mem : PhysMem

namespace ThreadSpace

/-- `TaskUserRes::new` with `alloc_user_res`, for the main thread and in `sys_thread_create`;
`tasks` grows until the new thread has a place. -/
def create (self : ThreadSpace) : Option ThreadSpace := do
  let (tid, taskResAllocator) := self.taskResAllocator.alloc
  let (memorySet, mem) ← TaskUserRes.allocUserRes ⟨tid, self.ustackBase⟩ self.memorySet self.mem
  some { self with
    memorySet := memorySet
    taskResAllocator := taskResAllocator
    threadCount := max self.threadCount (tid + 1)
    live := tid :: self.live
    mem := mem }

/-- The exit of a thread drops its `TaskUserRes`. -/
def exit (self : ThreadSpace) (tid : Nat) : Option ThreadSpace := do
  let taskResAllocator ← self.taskResAllocator.dealloc tid
  let (memorySet, mem) ← TaskUserRes.deallocUserRes ⟨tid, self.ustackBase⟩ self.memorySet self.mem
  some { self with
    memorySet := memorySet
    taskResAllocator := taskResAllocator
    live := self.live.erase tid
    mem := mem }

end ThreadSpace

/-- The stacks of `n` threads, each with the page above it, and their trap contexts fit between
the base and the trampoline. -/
def Room (ustackBase n : Nat) : Prop :=
  ustackBase / 4096 + 3 * n + n ≤ trampolineVpn

/-- The states of a process over its creation by a program or by `fork`, `exec`, and any order of
creations and exits of threads, with the page ranges of the program it runs. -/
inductive ThreadRun (L : Layout) (parse : List UInt8 → Option ElfFile) :
    List (Nat × Nat × MapPermission) → ThreadSpace → Prop where
  | new {ms : MemorySet} {s s₁ : PhysMem} {base entry : Nat} {elfData : List UInt8}
      {used : List Nat} {p : ThreadSpace} (howns : s.allocator.Owns L.low L.high used)
      (hload : MemorySet.fromElf parse L.strampoline s elfData = some ((ms, base, entry), s₁))
      (hroom : Room base 1) (hmain : ThreadSpace.create ⟨ms, .new, 0, base, [], s₁⟩ = some p) :
      ThreadRun L parse (ms.areas.map MapArea.range) p
  /-- The new space is loaded, the old one given back, which leaves the new one alone, and the
  main thread gets its areas again. -/
  | exec {image : List (Nat × Nat × MapPermission)} {p : ThreadSpace} {ms ms' : MemorySet}
      {s₁ s₂ s' : PhysMem} {base entry : Nat} {elfData : List UInt8} {used rest : List Nat}
      (h : ThreadRun L parse image p) (hone : p.threadCount = 1)
      (howns : p.mem.allocator.Owns L.low L.high used)
      (hload : MemorySet.fromElf parse L.strampoline p.mem elfData = some ((ms, base, entry), s₁))
      (hsame : ∀ x, x / 4096 ∈ ms.pageTable.frames → s₂.bytes x = s₁.bytes x)
      (howns₂ : s₂.allocator.Owns L.low L.high (ms.frames ++ rest)) (hroom : Room base 1)
      (hmain : TaskUserRes.allocUserRes ⟨0, base⟩ ms s₂ = some (ms', s')) :
      ThreadRun L parse (ms.areas.map MapArea.range)
        { p with memorySet := ms', ustackBase := base, mem := s' }
  /-- The child: its main thread takes the areas that were copied. -/
  | fork {image : List (Nat × Nat × MapPermission)} {p : ThreadSpace} {child : MemorySet}
      {s' : PhysMem} (h : ThreadRun L parse image p) (hone : p.threadCount = 1)
      (hcopy : MemorySet.fromExistedUser L.strampoline p.memorySet p.mem = some (child, s')) :
      ThreadRun L parse image ⟨child, RecycleAllocator.new.alloc.2, 1, p.ustackBase,
        [RecycleAllocator.new.alloc.1], s'⟩
  | create {image : List (Nat × Nat × MapPermission)} {p p' : ThreadSpace}
      (h : ThreadRun L parse image p) (hroom : Room p.ustackBase (p.live.length + 1))
      (hcreate : p.create = some p') : ThreadRun L parse image p'
  | exit {image : List (Nat × Nat × MapPermission)} {p p' : ThreadSpace} {tid : Nat}
      (h : ThreadRun L parse image p) (htid : tid ∈ p.live) (hmain : tid ≠ 0)
      (hexit : p.exit tid = some p') : ThreadRun L parse image p'
  /-- Programs and the rest of the kernel change other frames and the data in these. -/
  | other {image : List (Nat × Nat × MapPermission)} {p : ThreadSpace} {s' : PhysMem}
      {rest : List Nat} (h : ThreadRun L parse image p)
      (hsame : ∀ x, x / 4096 ∈ p.memorySet.pageTable.frames → s'.bytes x = p.mem.bytes x)
      (howns : s'.allocator.Owns L.low L.high (p.memorySet.frames ++ rest)) :
      ThreadRun L parse image { p with mem := s' }

variable {L : Layout} {parse : List UInt8 → Option ElfFile} {p p' : ThreadSpace}
  {image : List (Nat × Nat × MapPermission)} {ms ms' : MemorySet} {s s' : PhysMem}
  {base tid tid' vpn : Nat} {rest live : List Nat}

/-! ## Identifiers -/

/-- The identifiers of the threads, whatever areas they have. -/
structure TidInv (p : ThreadSpace) : Prop where
  owns : p.taskResAllocator.Owns p.live
  main : 0 ∈ p.live
  count : p.threadCount = p.taskResAllocator.current

theorem ThreadSpace.create_eq_some (h : p.create = some p') :
    allocUserRes ⟨p.taskResAllocator.alloc.1, p.ustackBase⟩ p.memorySet p.mem =
      some (p'.memorySet, p'.mem) ∧
    p'.taskResAllocator = p.taskResAllocator.alloc.2 ∧
    p'.threadCount = max p.threadCount (p.taskResAllocator.alloc.1 + 1) ∧
    p'.ustackBase = p.ustackBase ∧ p'.live = p.taskResAllocator.alloc.1 :: p.live := by
  simp only [create, do_eq_some_iff, Option.some.injEq] at h
  obtain ⟨⟨ms, s⟩, halloc, rfl⟩ := h
  exact ⟨halloc, rfl, rfl, rfl, rfl⟩

theorem ThreadSpace.exit_eq_some (h : p.exit tid = some p') :
    p.taskResAllocator.dealloc tid = some p'.taskResAllocator ∧
    deallocUserRes ⟨tid, p.ustackBase⟩ p.memorySet p.mem =
      some (p'.memorySet, p'.mem) ∧
    p'.threadCount = p.threadCount ∧ p'.ustackBase = p.ustackBase ∧
    p'.live = p.live.erase tid := by
  simp only [exit, do_eq_some_iff, Option.some.injEq] at h
  obtain ⟨a, hdealloc, ⟨ms, s⟩, halloc, rfl⟩ := h
  exact ⟨hdealloc, halloc, rfl, rfl, rfl⟩

theorem TidInv.create (howns : p.taskResAllocator.Owns p.live)
    (hcount : p.threadCount = p.taskResAllocator.current)
    (hmain : 0 ∈ p.live ∨ p.taskResAllocator = .new) (hcreate : p.create = some p') :
    TidInv p' := by
  obtain ⟨-, htids, hcount', -, hlive⟩ := ThreadSpace.create_eq_some hcreate
  refine ⟨?_, ?_, ?_⟩
  · rw [htids, hlive]
    exact howns.alloc
  · rw [hlive]
    rcases hmain with hmain | hnew
    · exact mem_cons_of_mem _ hmain
    · rw [hnew]
      exact mem_cons_self ..
  · rw [htids, hcount', hcount, howns.current_alloc]

theorem TidInv.exit (h : TidInv p) (htid : tid ∈ p.live) (hmain : tid ≠ 0)
    (hexit : p.exit tid = some p') : TidInv p' := by
  obtain ⟨hdealloc, -, hcount, -, hlive⟩ := ThreadSpace.exit_eq_some hexit
  obtain ⟨a, hdealloc', hcurrent, howns⟩ := h.owns.dealloc htid
  cases hdealloc'.symm.trans hdealloc
  refine ⟨?_, ?_, ?_⟩
  · rw [hlive]
    exact howns
  · rw [hlive]
    exact (mem_erase_of_ne (Ne.symm hmain)).mpr h.main
  · rw [hcount, hcurrent]
    exact h.count

theorem ThreadRun.tids (h : ThreadRun L parse image p) : TidInv p := by
  induction h with
  | new howns hload hroom hmain =>
    exact TidInv.create RecycleAllocator.owns_new rfl (.inr rfl) hmain
  | exec h hone howns hload hsame howns₂ hroom hmain ih => exact ⟨ih.owns, ih.main, ih.count⟩
  | fork h hone hcopy ih =>
    exact ⟨RecycleAllocator.owns_new.alloc, mem_cons_self .., rfl⟩
  | create h hroom hcreate ih => exact TidInv.create ih.owns ih.count (.inl ih.main) hcreate
  | exit h htid hmain hexit ih => exact ih.exit htid hmain hexit
  | other h hsame howns ih => exact ⟨ih.owns, ih.main, ih.count⟩

/-- A process whose `tasks` has one place has the main thread only. -/
theorem TidInv.live_eq (h : TidInv p) (hone : p.threadCount = 1) : p.live = [0] :=
  h.owns.eq_singleton (h.count.symm.trans hone) h.main

/-! ## Where the areas of a thread are -/

def ustackRange (base tid : Nat) : Nat × Nat × MapPermission :=
  (base / 4096 + 3 * tid, base / 4096 + 3 * tid + 2,
    MapPermission.R ||| MapPermission.W ||| MapPermission.U)

def trapCxRange (tid : Nat) : Nat × Nat × MapPermission :=
  (2 ^ 27 - 2 - tid, 2 ^ 27 - 2 - tid + 1, MapPermission.R ||| MapPermission.W)

def threadRanges (base tid : Nat) : List (Nat × Nat × MapPermission) :=
  [ustackRange base tid, trapCxRange tid]

theorem Room.below (h : Room base (tid + 1)) : base / 4096 + 3 * tid + 2 < 2 ^ 27 := by
  rw [Room, trampolineVpn] at h
  omega

/-! ## The areas of a process -/

/-- The space has the areas of the program and those of the threads, in any order, and no
others. -/
structure ThreadsPlaced (L : Layout) (image : List (Nat × Nat × MapPermission)) (base : Nat)
    (live : List Nat) (ms : MemorySet) (s : PhysMem) (rest : List Nat) : Prop where
  space : SpaceInv L ms s rest
  areas : (ms.areas.map MapArea.range).Perm (image ++ live.flatMap (threadRanges base))

theorem ThreadsPlaced.alloc (h : ThreadsPlaced L image base live ms s rest)
    (haligned : base % 4096 = 0)
    (hroom : Room base (tid + 1))
    (halloc : allocUserRes ⟨tid, base⟩ ms s = some (ms', s')) :
    ThreadsPlaced L image base (tid :: live) ms' s' rest := by
  obtain ⟨ustack, trapCx, hinv, hareas, -, hustack, htrapCx⟩ :=
    TaskUserRes.allocUserRes_spec h.space halloc
  rw [ustackArea_eq haligned hroom.below, map_some, Option.some.injEq] at hustack
  have htid : tid + 2 ≤ 2 ^ 27 := by
    rw [Room, trampolineVpn] at hroom
    omega
  rw [trapCxArea_eq htid, map_some, Option.some.injEq] at htrapCx
  refine ⟨hinv, ?_⟩
  have hranges : [ustack, trapCx].map MapArea.range = threadRanges base tid := by
    rw [threadRanges, map_cons, map_singleton, ← hustack, ← htrapCx]
    rfl
  rw [hareas, map_append, hranges, flatMap_cons]
  have hperm := h.areas.append_right (threadRanges base tid)
  rw [append_assoc] at hperm
  exact hperm.trans (perm_append_comm.append_left image)

theorem remove_range {range : Nat × Nat × MapPermission}
    {others : List (Nat × Nat × MapPermission)} (h : SpaceInv L ms s rest)
    (hareas : (ms.areas.map MapArea.range).Perm (range :: others))
    (hstart : ∀ other ∈ others, other.1 ≠ range.1) :
    ∃ ms' s', ms.removeAreaWithStartVpn s range.1 = some (ms', s') ∧ SpaceInv L ms' s' rest ∧
      (ms'.areas.map MapArea.range).Perm others := by
  obtain ⟨area, hmem, hrange⟩ := mem_map.mp (hareas.mem_iff.mpr (mem_cons_self ..))
  obtain ⟨found, hfind⟩ : ∃ found, ms.areas.find? (·.startVpn = range.1) = some found := by
    rw [← isSome_iff_exists, find?_isSome]
    exact ⟨area, hmem, by simp [← hrange, MapArea.range]⟩
  obtain ⟨ms', s', hremove, hremoved⟩ := h.remove_eq hfind
  have hfound : found.range = range := by
    have hin := hareas.mem_iff.mp (mem_map_of_mem (mem_of_find?_eq_some hfind))
    have hsame : found.startVpn = range.1 := by simpa using find?_some hfind
    rcases mem_cons.mp hin with heq | hother
    · exact heq
    · exact absurd hsame (hstart _ hother)
  obtain ⟨before, after, hsplit, hsplit'⟩ := hremoved.areas
  refine ⟨ms', s', hremove, hremoved.inv, ?_⟩
  rw [hsplit, map_append, map_cons, hfound] at hareas
  rw [hsplit', map_append]
  exact (perm_middle.symm.trans hareas).cons_inv

/-- The program ends at least one page below the stacks, and so do its empty ranges. -/
def Below (image : List (Nat × Nat × MapPermission)) (base : Nat) : Prop :=
  ∀ range ∈ image, range.2.1 < base / 4096

theorem ThreadsPlaced.starts_ne (h : ThreadsPlaced L image base live ms s rest) {n : Nat}
    (hroom : Room base n) (hlt : ∀ tid ∈ live, tid < n) (hnodup : live.Nodup)
    (hbelow : Below image base) (htid : tid ∈ live) :
    ∀ other ∈ image ++ (live.erase tid).flatMap (threadRanges base),
      other.1 ≠ (ustackRange base tid).1 ∧ other.1 ≠ (trapCxRange tid).1 := by
  rw [Room, trampolineVpn] at hroom
  intro other hother
  have htidlt := hlt tid htid
  simp only [ustackRange, trapCxRange]
  rcases mem_append.mp hother with himage | hthread
  · -- a range of the program starts at or below its end
    obtain ⟨area, hmem, rfl⟩ := mem_map.mp (h.areas.mem_iff.mpr (mem_append_left _ himage))
    have hend := hbelow _ himage
    have hle := (h.space.complete area hmem).le
    simp only [MapArea.range] at hend ⊢
    omega
  · obtain ⟨tid', htid', hmem⟩ := mem_flatMap.mp hthread
    have hne := (hnodup.mem_erase_iff.mp htid').1
    have htid'lt := hlt tid' (mem_of_mem_erase htid')
    rcases mem_pair.mp hmem with rfl | rfl
    · simp only [ustackRange]
      omega
    · simp only [trapCxRange]
      omega

/-- `dealloc_user_res` by the first pages of the two areas. -/
theorem deallocUserRes_eq (haligned : base % 4096 = 0) (hroom : Room base (tid + 1)) :
    deallocUserRes ⟨tid, base⟩ ms s =
      (ms.removeAreaWithStartVpn s (ustackRange base tid).1).bind fun r =>
        r.1.removeAreaWithStartVpn r.2 (trapCxRange tid).1 := by
  have hbelow := hroom.below
  rw [Room, trampolineVpn] at hroom
  have hustackVpn : toVirtPageNum (ofUsize (ustackBottomFromTid base tid)) =
      some (ustackRange base tid).1 := by
    rw [ustackBottomFromTid_eq haligned hbelow, ofUsize_of_lt (by omega)]
    exact toVirtPageNum_mul _
  have htrapCxVpn : toVirtPageNum (ofUsize (trapCxBottomFromTid tid)) =
      some (trapCxRange tid).1 := by
    rw [ofUsize_trapCxBottomFromTid (by omega)]
    exact toVirtPageNum_mul _
  simp only [deallocUserRes, hustackVpn, htrapCxVpn, bind_eq_bind, bind_some]

theorem ThreadsPlaced.dealloc (h : ThreadsPlaced L image base live ms s rest)
    (haligned : base % 4096 = 0)
    {n : Nat} (hroom : Room base n) (hlt : ∀ tid ∈ live, tid < n) (hnodup : live.Nodup)
    (hbelow : Below image base) (htid : tid ∈ live) :
    ∃ ms' s', deallocUserRes ⟨tid, base⟩ ms s = some (ms', s') ∧
      ThreadsPlaced L image base (live.erase tid) ms' s' rest := by
  have htidlt := hlt tid htid
  have hfits : Room base (tid + 1) := by
    rw [Room] at hroom ⊢
    omega
  have hstarts := h.starts_ne hroom hlt hnodup hbelow htid
  have hthreads : (image ++ live.flatMap (threadRanges base)).Perm
      (ustackRange base tid :: trapCxRange tid ::
        (image ++ (live.erase tid).flatMap (threadRanges base))) := by
    have hcons := ((perm_cons_erase htid).flatMap_right (threadRanges base)).append_left image
    exact hcons.trans (perm_append_comm_assoc ..)
  obtain ⟨ms₁, s₁, hfirst, hinv₁, hareas₁⟩ := remove_range h.space (h.areas.trans hthreads)
    (by
      intro other hother
      rcases mem_cons.mp hother with rfl | hother
      · rw [Room, trampolineVpn] at hroom
        simp only [ustackRange, trapCxRange]
        omega
      · exact (hstarts other hother).1)
  obtain ⟨ms₂, s₂, hsecond, hinv₂, hareas₂⟩ := remove_range hinv₁ hareas₁
    fun other hother => (hstarts other hother).2
  refine ⟨ms₂, s₂, ?_, hinv₂, hareas₂⟩
  rw [deallocUserRes_eq haligned hfits, hfirst, bind_some, hsecond]

/-! ## Over a run -/

/-- The program and its threads are placed, and there is room for the threads that were ever
live at the same time. -/
structure ThreadsInv (L : Layout) (image : List (Nat × Nat × MapPermission)) (p : ThreadSpace) :
    Prop where
  placed : ∃ rest, ThreadsPlaced L image p.ustackBase p.live p.memorySet p.mem rest
  aligned : p.ustackBase % 4096 = 0
  pos : 1 ≤ p.ustackBase / 4096
  room : Room p.ustackBase p.taskResAllocator.current

theorem fromElfLoop_maxEndVpn_le {input : List UInt8} {headers : List ProgramHeader}
    {maxEndVpn maxEndVpn' : Nat} (hle : maxEndVpn ≤ 2 ^ 27)
    (hload : fromElfLoop input headers ms s maxEndVpn = some (ms', s', maxEndVpn')) :
    maxEndVpn' ≤ 2 ^ 27 := by
  induction headers generalizing ms s maxEndVpn with
  | nil =>
    simp only [fromElfLoop, Option.some.injEq, Prod.mk.injEq] at hload
    omega
  | cons ph headers ih =>
    rw [fromElfLoop] at hload
    split at hload
    · simp only [do_eq_some_iff] at hload
      obtain ⟨area, hnew, _, -, ⟨_, _⟩, -, hload⟩ := hload
      have hlt := ofUsize_lt
      obtain ⟨rfl, -⟩ := new_eq_some hnew (hlt _)
      refine ih ?_ hload
      have hend := hlt (usizeAdd ph.virtualAddr ph.memSize)
      simp only
      omega
    · exact ih hle hload

theorem fromElf_base_pos {elfData : List UInt8} {strampoline entry : Nat}
    (hload : fromElf parse strampoline s elfData = some ((ms, base, entry), s')) :
    1 ≤ base / 4096 := by
  simp only [fromElf, do_eq_some_iff, Option.some.injEq, Prod.mk.injEq] at hload
  obtain ⟨_, -, _, -, _, -, ⟨_, _, maxEndVpn⟩, hloop, ⟨-, rfl, -⟩, -⟩ := hload
  have hle := fromElfLoop_maxEndVpn_le (Nat.zero_le _) hloop
  simp only
  rw [VirtPageNum.toVirtAddr_eq (by omega), pageSize, usizeAdd_eq (by omega)]
  omega

theorem ThreadsInv.of_main {elfData : List UInt8} {strampoline entry : Nat} {s₀ : PhysMem}
    (hload : fromElf parse strampoline s₀ elfData = some ((ms, base, entry), s'))
    (hinv : SpaceInv L ms s rest) (hroom : Room base 1)
    (hmain : allocUserRes ⟨0, base⟩ ms s = some (p.memorySet, p.mem))
    (hbase : p.ustackBase = base) (hlive : p.live = [0]) (htids : p.taskResAllocator.current = 1) :
    ThreadsInv L (ms.areas.map MapArea.range) p := by
  have haligned := MemorySet.fromElf_base_aligned hload
  have hplaced : ThreadsPlaced L (ms.areas.map MapArea.range) base [] ms s rest :=
    ⟨hinv, by rw [flatMap_nil, append_nil]⟩
  refine ⟨⟨rest, ?_⟩, ?_, ?_, ?_⟩
  · rw [hbase, hlive]
    exact hplaced.alloc haligned hroom hmain
  · rwa [hbase]
  · rw [hbase]
    exact fromElf_base_pos hload
  · rwa [hbase, htids]

theorem ThreadsInv.create (h : ThreadsInv L image p) (htids : TidInv p)
    (hroom : Room p.ustackBase (p.live.length + 1)) (hcreate : p.create = some p') :
    ThreadsInv L image p' := by
  obtain ⟨halloc, htids', -, hbase, hlive⟩ := ThreadSpace.create_eq_some hcreate
  obtain ⟨rest, hplaced⟩ := h.placed
  have hroom' : Room p.ustackBase p.taskResAllocator.alloc.2.current := by
    have hle := htids.owns.current_alloc_le
    have hold := h.room
    rw [Room] at hold hroom ⊢
    omega
  have hfits : Room p.ustackBase (p.taskResAllocator.alloc.1 + 1) := by
    have hcurrent := htids.owns.current_alloc
    rw [Room] at hroom' ⊢
    omega
  refine ⟨⟨rest, ?_⟩, ?_, ?_, ?_⟩
  · rw [hbase, hlive]
    exact hplaced.alloc h.aligned hfits halloc
  · rw [hbase]
    exact h.aligned
  · rw [hbase]
    exact h.pos
  · rwa [hbase, htids']

theorem ThreadsInv.exit_returns (h : ThreadsInv L image p) (htids : TidInv p)
    (hbelow : Below image p.ustackBase) (htid : tid ∈ p.live) :
    ∃ p', p.exit tid = some p' ∧ ThreadsInv L image p' := by
  obtain ⟨rest, hplaced⟩ := h.placed
  obtain ⟨a, hdealloc, hcurrent, -⟩ := htids.owns.dealloc htid
  obtain ⟨ms', s', hres, hplaced'⟩ := hplaced.dealloc h.aligned h.room
    (fun tid htid => htids.owns.lt htid) htids.owns.nodup hbelow htid
  refine ⟨⟨ms', a, p.threadCount, p.ustackBase, p.live.erase tid, s'⟩, ?_, ⟨rest, hplaced'⟩,
    h.aligned, h.pos, ?_⟩
  · simp only [ThreadSpace.exit, hdealloc, hres, do_some]
  · simp only [hcurrent]
    exact h.room

theorem ThreadRun.inv (h : ThreadRun L parse image p) (hbelow : Below image p.ustackBase) :
    ThreadsInv L image p := by
  induction h with
  | new howns hload hroom hmain =>
    obtain ⟨halloc, htids, -, hbase, hlive⟩ := ThreadSpace.create_eq_some hmain
    exact .of_main hload (SpaceInv.of_fromElf howns hload).1 hroom halloc hbase hlive
      (by rw [htids]; rfl)
  | @exec image p ms ms' s₁ s₂ s' base entry elfData used rest h hone howns hload hsame howns₂ hroom
      hmain ih =>
      have hinv := (SpaceInv.of_fromElf howns hload).1.other hsame howns₂
      exact .of_main hload hinv hroom hmain rfl (h.tids.live_eq hone) (h.tids.count.symm.trans hone)
  | @fork image p child s' h hone hcopy ih =>
    obtain ⟨⟨rest, hplaced⟩, haligned, hpos, hroom⟩ := ih hbelow
    have hcopying := hplaced.space.fromExistedUser_yields.of_eq_some hcopy
    refine ⟨⟨_, hcopying.both.second, ?_⟩, haligned, hpos, ?_⟩
    · have hareas := hplaced.areas
      rw [h.tids.live_eq hone] at hareas
      rw [hcopying.areas]
      exact hareas
    · rwa [← h.tids.count, hone] at hroom
  | create h hroom hcreate ih =>
    rw [(ThreadSpace.create_eq_some hcreate).2.2.2.1] at hbelow
    exact (ih hbelow).create h.tids hroom hcreate
  | exit h htid hmain hexit ih =>
    rw [(ThreadSpace.exit_eq_some hexit).2.2.2.1] at hbelow
    obtain ⟨p', hexit', hinv⟩ := (ih hbelow).exit_returns h.tids hbelow htid
    cases hexit'.symm.trans hexit
    exact hinv
  | other h hsame howns ih =>
    obtain ⟨⟨rest, hplaced⟩, haligned, hpos, hroom⟩ := ih hbelow
    exact ⟨⟨_, hplaced.space.other hsame howns, hplaced.areas⟩, haligned, hpos, hroom⟩

/-! ## What holds in every state -/

/-- The first page of the user stack of a thread, and the page of its trap context. -/
def ustackVpn (base tid : Nat) : Nat :=
  VirtAddr.floor (VirtAddr.ofUsize (ustackBottomFromTid base tid))

def trapCxVpn (tid : Nat) : Nat :=
  VirtAddr.floor (VirtAddr.ofUsize (trapCxBottomFromTid tid))

/-- The page is in the user stack of the thread. -/
def InUstack (base tid vpn : Nat) : Prop :=
  ustackVpn base tid ≤ vpn ∧ vpn < ustackVpn base tid + userStackSize / pageSize

namespace ThreadSpace

def MappedAs (self : ThreadSpace) (vpn : Nat) (perm : MapPermission) : Prop :=
  ∃ pte, self.memorySet.translate self.mem.bytes vpn = some pte ∧ pte.isValid = true ∧
    pte.flags = perm ||| PTEFlags.V

def Unmapped (self : ThreadSpace) (vpn : Nat) : Prop :=
  ∀ pte, self.memorySet.translate self.mem.bytes vpn = some pte → pte.isValid = false

end ThreadSpace

theorem ustackVpn_eq (haligned : base % 4096 = 0) (hroom : Room base (tid + 1)) :
    ustackVpn base tid = base / 4096 + 3 * tid := by
  have hbottom := ustackBottomFromTid_eq haligned hroom.below
  rw [Room, trampolineVpn] at hroom
  rw [ustackVpn, hbottom, ofUsize_of_lt (by omega), floor, pageFloor_eq]
  omega

theorem trapCxVpn_eq (htid : tid + 2 ≤ 2 ^ 27) : trapCxVpn tid = 2 ^ 27 - 2 - tid := by
  rw [trapCxVpn, ofUsize_trapCxBottomFromTid htid, floor, pageFloor_eq]
  omega

namespace ThreadsInv

variable (h : ThreadsInv L image p) (htids : TidInv p)

include h htids

theorem fits (htid : tid ∈ p.live) : Room p.ustackBase (tid + 1) := by
  have hlt := htids.owns.lt htid
  have hroom := h.room
  rw [Room] at hroom ⊢
  omega

theorem positions (htid : tid ∈ p.live) :
    ustackVpn p.ustackBase tid = p.ustackBase / 4096 + 3 * tid ∧
    trapCxVpn tid = 2 ^ 27 - 2 - tid ∧
    p.ustackBase / 4096 + 3 * p.taskResAllocator.current + p.taskResAllocator.current ≤ 2 ^ 27 - 1 ∧
    tid < p.taskResAllocator.current := by
  have hfits := h.fits htids htid
  have hroom := h.room
  refine ⟨ustackVpn_eq h.aligned hfits, trapCxVpn_eq ?_, hroom, htids.owns.lt htid⟩
  rw [Room, trampolineVpn] at hfits
  omega

theorem covers {area : MapArea} (hmem : area ∈ p.memorySet.areas) (hcovers : area.Covers vpn) :
    (∃ range ∈ image, range.1 ≤ vpn ∧ vpn < range.2.1) ∨
      ∃ tid ∈ p.live, InUstack p.ustackBase tid vpn ∨ vpn = trapCxVpn tid := by
  obtain ⟨rest, hplaced⟩ := h.placed
  have hrange := hplaced.areas.mem_iff.mp (mem_map_of_mem hmem)
  rcases mem_append.mp hrange with himage | hthread
  · exact .inl ⟨_, himage, hcovers⟩
  · obtain ⟨tid, htid, hpair⟩ := mem_flatMap.mp hthread
    obtain ⟨hustack, htrapCx, -, -⟩ := h.positions htids htid
    refine .inr ⟨tid, htid, ?_⟩
    rw [Covers] at hcovers
    rcases mem_pair.mp hpair with heq | heq
    · simp only [MapArea.range, ustackRange, Prod.mk.injEq] at heq
      refine .inl ⟨?_, ?_⟩
      · omega
      · rw [userStackSize, pageSize]
        omega
    · simp only [MapArea.range, trapCxRange, Prod.mk.injEq] at heq
      exact .inr (by omega)

omit htids in
theorem mapped {range : Nat × Nat × MapPermission} (htid : tid ∈ p.live)
    (hrange : range ∈ threadRanges p.ustackBase tid) (hvpn : range.1 ≤ vpn ∧ vpn < range.2.1) :
    p.MappedAs vpn range.2.2 := by
  obtain ⟨rest, hplaced⟩ := h.placed
  obtain ⟨area, hmem, rfl⟩ := mem_map.mp (hplaced.areas.mem_iff.mpr
    (mem_append_right _ (mem_flatMap.mpr ⟨tid, htid, hrange⟩)))
  obtain ⟨ppn, -, -, hlt, htranslate⟩ := hplaced.space.translate_of_covers hmem hvpn
  exact ⟨_, htranslate, PageTableEntry.isValid_new hlt _, PageTableEntry.flags_new hlt _⟩

theorem unmapped (hvpn : vpn < trampolineVpn)
    (hfree : ∀ range ∈ image, ¬(range.1 ≤ vpn ∧ vpn < range.2.1))
    (hthreads : ∀ tid ∈ p.live, ¬InUstack p.ustackBase tid vpn ∧ vpn ≠ trapCxVpn tid) :
    p.Unmapped vpn := by
  obtain ⟨rest, hplaced⟩ := h.placed
  intro pte htranslate
  rw [trampolineVpn] at hvpn
  by_contra hvalid
  rw [Bool.not_eq_false] at hvalid
  rcases (hplaced.space.isValid_iff (by omega)).mp ⟨pte, htranslate, hvalid⟩ with heq |
    ⟨area, hmem, hcovers⟩
  · rw [trampolineVpn] at heq
    omega
  · rcases h.covers htids hmem hcovers with ⟨range, hrange, hin⟩ | ⟨tid, htid, hin⟩
    · exact hfree range hrange hin
    · exact hin.elim (hthreads tid htid).1 (hthreads tid htid).2

/-- A thread can be created while there is room and there are frames. -/
theorem create_returns (hbelow : Below image p.ustackBase)
    (hroom : Room p.ustackBase (p.live.length + 1)) (henough : 9 ≤ p.mem.allocator.available) :
    ∃ p', p.create = some p' := by
  obtain ⟨rest, hplaced⟩ := h.placed
  have hnew := htids.owns.alloc_notMem
  have hcurrent := htids.owns.current_alloc
  have hle := htids.owns.current_alloc_le
  have hold := h.room
  rw [Room, trampolineVpn] at hold hroom
  have hfits : Room p.ustackBase (p.taskResAllocator.alloc.1 + 1) := by
    rw [Room, trampolineVpn]
    omega
  obtain ⟨ms', s', -, -, halloc, -⟩ := TaskUserRes.allocUserRes_returns hplaced.space
    (ustackArea_eq h.aligned hfits.below) (trapCxArea_eq (by omega))
    (fun vpn hvpn => by
      simp only [Covers] at hvpn
      refine ⟨fun heq => ?_, fun other hother hcovers => ?_⟩
      · rw [trampolineVpn] at heq
        omega
      · rcases h.covers htids hother hcovers with ⟨range, hrange, hin⟩ | ⟨tid, htid, hin⟩
        · have hend := hbelow range hrange
          omega
        · -- another live thread has another identifier
          have hne : tid ≠ p.taskResAllocator.alloc.1 := fun heq => hnew (heq ▸ htid)
          obtain ⟨hustack, htrapCx, -, hlt⟩ := h.positions htids htid
          rw [InUstack, hustack, htrapCx, userStackSize, pageSize] at hin
          omega)
    (fun vpn hfirst hsecond => by
      simp only [Covers] at hfirst hsecond
      omega)
    (by simp only; omega)
  simp only [ThreadSpace.create, halloc, do_some]
  exact ⟨_, rfl⟩

end ThreadsInv

/-- **Threads keep to their own pages.**  Over every order of creations and exits, as long as
the stacks and the trap contexts of the live threads do not meet and every range of the program,
an empty one as well, ends at least one page below the base: the stacks and the trap contexts of
live threads are disjoint and mapped as they should be, the pages next to a stack are not mapped,
no page of a thread is one of the program, and threads can be created, whether or not their
identifiers were in use before, and can exit. -/
theorem thread_areas_kept (h : ThreadRun L parse image p) (hbelow : Below image p.ustackBase) :
    (∀ tid ∈ p.live, ∀ tid' ∈ p.live, ∀ vpn,
      (InUstack p.ustackBase tid vpn → InUstack p.ustackBase tid' vpn → tid = tid') ∧
      (trapCxVpn tid = trapCxVpn tid' → tid = tid') ∧
      (InUstack p.ustackBase tid vpn → vpn ≠ trapCxVpn tid')) ∧
    (∀ tid ∈ p.live,
      (∀ vpn, InUstack p.ustackBase tid vpn →
        p.MappedAs vpn (MapPermission.R ||| MapPermission.W ||| MapPermission.U)) ∧
      p.MappedAs (trapCxVpn tid) (MapPermission.R ||| MapPermission.W) ∧
      0 < ustackVpn p.ustackBase tid ∧ p.Unmapped (ustackVpn p.ustackBase tid - 1) ∧
      p.Unmapped (ustackVpn p.ustackBase tid + userStackSize / pageSize)) ∧
    (∀ range ∈ image, ∀ vpn, range.1 ≤ vpn → vpn < range.2.1 → ∀ tid ∈ p.live,
      ¬InUstack p.ustackBase tid vpn ∧ vpn ≠ trapCxVpn tid) ∧
    (Room p.ustackBase (p.live.length + 1) → 9 ≤ p.mem.allocator.available →
      ∃ p', p.create = some p') ∧
    ∀ tid ∈ p.live, ∃ p', p.exit tid = some p' := by
  have hinv := h.inv hbelow
  have htids := h.tids
  have hpos := hinv.pos
  have hpages : userStackSize / pageSize = 2 := by decide
  rw [hpages]
  refine ⟨fun tid htid tid' htid' vpn => ?_, fun tid htid => ?_, ?_, ?_, ?_⟩
  · obtain ⟨hustack, htrapCx, hroom, hlt⟩ := hinv.positions htids htid
    obtain ⟨hustack', htrapCx', -, hlt'⟩ := hinv.positions htids htid'
    rw [InUstack, InUstack, hustack, hustack', htrapCx, htrapCx', hpages]
    omega
  · obtain ⟨hustack, htrapCx, hroom, hlt⟩ := hinv.positions htids htid
    -- the pages next to a stack are in no slot of another thread
    have hguard : ∀ vpn, vpn + 1 = ustackVpn p.ustackBase tid ∨
        vpn = ustackVpn p.ustackBase tid + 2 → p.Unmapped vpn := by
      intro vpn hvpn
      rw [hustack] at hvpn
      apply hinv.unmapped htids
      · rw [trampolineVpn]
        omega
      · intro range hrange hin
        have hend := hbelow range hrange
        omega
      · intro tid' htid'
        obtain ⟨hustack', htrapCx', -, hlt'⟩ := hinv.positions htids htid'
        rw [InUstack, hustack', htrapCx', hpages]
        omega
    refine ⟨fun vpn hvpn => ?_, ?_, by omega, hguard _ (.inl (by omega)), hguard _ (.inr rfl)⟩
    · rw [InUstack, hustack, hpages] at hvpn
      exact hinv.mapped htid (List.mem_cons_self ..) hvpn
    · rw [htrapCx]
      exact hinv.mapped htid (List.mem_cons_of_mem _ (List.mem_singleton_self _))
        ⟨Nat.le_refl _, Nat.lt_succ_self _⟩
  · intro range hrange vpn _ hvpn tid htid
    have hend := hbelow range hrange
    obtain ⟨hustack, htrapCx, hroom, hlt⟩ := hinv.positions htids htid
    rw [InUstack, hustack, htrapCx]
    omega
  · exact hinv.create_returns htids hbelow
  · intro tid htid
    obtain ⟨p', hexit, -⟩ := hinv.exit_returns htids hbelow htid
    exact ⟨p', hexit⟩

/-- A process whose second thread has exited, with the page ranges of its program. -/
def secondExited (parse : List UInt8 → Option ElfFile) :
    Option (List (Nat × Nat × MapPermission) × ThreadSpace) := do
  let ((memorySet, ustackBase, _), mem) ←
    MemorySet.fromElf parse smallLayout.strampoline ⟨fun _ => 7, ⟨100, 200, []⟩⟩ []
  let self ← ThreadSpace.create ⟨memorySet, .new, 0, ustackBase, [], mem⟩
  let self ← self.create
  let self ← self.exit 1
  some (memorySet.areas.map MapArea.range, self)

theorem threadRun_secondExited (h : secondExited parse = some (image, p))
    (hroom : Room p.ustackBase 2) : ThreadRun smallLayout parse image p := by
  simp only [secondExited, do_eq_some_iff, Option.some.injEq, Prod.mk.injEq] at h
  obtain ⟨⟨⟨ms, base, entry⟩, s⟩, hload, one, hmain, two, hsecond, last, hexit, rfl, rfl⟩ := h
  obtain ⟨-, htids₁, -, hbase₁, hlive₁⟩ := ThreadSpace.create_eq_some hmain
  obtain ⟨-, -, -, hbase₂, hlive₂⟩ := ThreadSpace.create_eq_some hsecond
  have hbase₃ := (ThreadSpace.exit_eq_some hexit).2.2.2.1
  simp only at hload hbase₁
  have hrooms : ∀ n ≤ 2, Room base n := by
    intro n hn
    rw [hbase₃, hbase₂, hbase₁, Room] at hroom
    rw [Room]
    omega
  have hrun₁ := ThreadRun.new owns_smallLayout hload (hrooms 1 (by decide)) hmain
  have hrun₂ := hrun₁.create (by rw [hbase₁, hlive₁]; exact hrooms 2 (by decide)) hsecond
  refine hrun₂.exit ?_ (by decide) hexit
  rw [hlive₂, htids₁]
  exact mem_cons_self ..

theorem thread_areas_kept_reused : ∃ image p p',
    ThreadRun smallLayout (fun _ => some smallElf) image p ∧ Below image p.ustackBase ∧
    1 ∉ p.live ∧ p.create = some p' ∧ 1 ∈ p'.live := by
  have hfacts : (secondExited fun _ => some smallElf).map (fun r =>
      (r.1.map (·.2.1), r.2.ustackBase, r.2.live, r.2.taskResAllocator.recycled,
        decide (9 ≤ r.2.mem.allocator.available))) = some ([3], 0x4000, [0], [1], true) := by
    decide +kernel
  obtain ⟨⟨image, p⟩, hsome, hfacts⟩ := Option.map_eq_some_iff.mp hfacts
  simp only [Prod.mk.injEq, decide_eq_true_eq] at hfacts
  obtain ⟨hends, hbase, hlive, hrecycled, henough⟩ := hfacts
  have hrun := threadRun_secondExited hsome (by rw [hbase, Room]; decide)
  have hbelow : Below image p.ustackBase := by
    intro range hrange
    have hend := List.mem_map_of_mem (f := (·.2.1)) hrange
    rw [hends, List.mem_singleton] at hend
    rw [hend, hbase]
    decide
  obtain ⟨p', hcreate⟩ := (thread_areas_kept hrun hbelow).2.2.2.1
    (by rw [hbase, hlive, Room]; decide) henough
  have hlive' := (ThreadSpace.create_eq_some hcreate).2.2.2.2
  refine ⟨image, p, p', hrun, hbelow, by rw [hlive]; decide, hcreate, ?_⟩
  rw [hlive', RecycleAllocator.alloc, hrecycled]
  exact List.mem_cons_self ..

/-- A program whose second segment is empty and lies where the stack of thread 1 starts. -/
def emptySegmentElf : ElfFile where
  input := []
  programHeaders := [⟨true, 0x1000, 0x1000, 0, 0, true, false, true⟩,
    ⟨true, 0x9000, 0, 0, 0, true, true, false⟩, ⟨true, 0x4000, 0x1000, 0, 0, true, true, false⟩]
  entryPoint := 0x1000

/-- The exit of thread 1 removes the empty area, which starts at the same page as the stack, and
leaves the stack mapped: the kernel panics when a thread is created with the identifier again,
although the base is one page above all bytes of the program. -/
theorem reused_tid_panics : ∃ image p,
    ThreadRun smallLayout (fun _ => some emptySegmentElf) image p ∧
    (∀ ph ∈ emptySegmentElf.segments, 0 < ph.memSize →
      ph.virtualAddr + ph.memSize + pageSize ≤ p.ustackBase) ∧
    (∀ range ∈ image, range.1 < range.2.1 → range.2.1 < p.ustackBase / 4096) ∧
    p.live = [0] ∧ Room p.ustackBase (p.live.length + 1) ∧ 9 ≤ p.mem.allocator.available ∧
    p.create = none := by
  have hfacts : (secondExited fun _ => some emptySegmentElf).map (fun r =>
      (r.1.map (fun range => (range.1, range.2.1)), r.2.ustackBase, r.2.live,
        decide (9 ≤ r.2.mem.allocator.available), r.2.create.isNone)) =
      some ([(1, 2), (9, 9), (4, 5)], 0x6000, [0], true, true) := by decide +kernel
  obtain ⟨⟨image, p⟩, hsome, hfacts⟩ := Option.map_eq_some_iff.mp hfacts
  simp only [Prod.mk.injEq, decide_eq_true_eq, Option.isNone_iff_eq_none] at hfacts
  obtain ⟨hends, hbase, hlive, henough, hnone⟩ := hfacts
  refine ⟨image, p, threadRun_secondExited hsome (by rw [hbase, Room]; decide), ?_, ?_, hlive, ?_,
    henough, hnone⟩
  · rw [hbase]
    decide
  · intro range hrange hpages
    have hend := List.mem_map_of_mem (f := fun range => (range.1, range.2.1)) hrange
    rw [hends] at hend
    simp only [List.mem_cons, Prod.mk.injEq, List.not_mem_nil, or_false] at hend
    omega
  · rw [hbase, hlive, Room]
    decide

end RCore.Task
