import RCore.Lib.Queues
import RCore.Mm.ManySpaces
import RCore.Syscall.PipeWorld
import RCore.Syscall.UserAccess

/-!
# The frames that waiting calls keep

The slices of a call that waits are of frames of the space of its process as long as
their areas stay.  An area goes only when its thread exits: `fork` and `exec` need a
process with one thread, and the main thread can only exit when the other threads have.
-/

namespace RCore.Syscall

open RCore.Fs RCore.Mm RCore.Task RCore.Lib.Queues List Option

variable {processes : List ProcessState} {k i : Nat} {s mem : PhysMem} {rest : List Nat}
  {c : PipeCall} {o : Outcome} {u : ThreadState}

/-- The areas that `dealloc_user_res` removes: those that start where the user stack and the
trap context of the thread start. -/
def IsUserRes (res : TaskUserRes) (area : MapArea) : Prop :=
  area.startVpn = page (ustackBottomFromTid res.ustackBase res.tid) ∨
    area.startVpn = page (trapCxBottomFromTid res.tid)

/-- A buffer that is passed to a pipe lies in areas of the process, and no thread exits
while another thread of the process waits in a call with a byte of its buffer in the user
stack or the trap context of the exiting thread. -/
def Careful (w : World) : Action → Prop
  | .start ptr len => ∀ t res p ms, w.Runs t res p ms →
      ∀ va, ptr ≤ va → va < usizeAdd ptr len → ∃ area ∈ ms.areas, area.Covers (page va)
  | .exitThread => ∀ t res p ms, w.Runs t res p ms →
      ∀ (i : Nat) u c, w.threads[i]? = some u → u.process = t.process → i ≠ w.running →
        u.pending = some c → ∀ k < c.call.len, ∀ area ∈ ms.areas, IsUserRes res area →
          ¬area.Covers (page (c.ptr + k))
  | .tau => True

/-- The frame is that of the page in an area of the space. -/
def OwnedAt (ms : MemorySet) (vpn ppn : Nat) : Prop :=
  ∃ area ∈ ms.areas, area.dataFrames.lookup vpn = some ppn

namespace World

/-- When the running thread is in a pipe call and about to transfer a byte, the frame that
it touches is that of the page which the user buffer named, in the space of its process. -/
def TouchesOwnFrame (w : World) : Prop :=
  ∀ t c n byteRef iter, w.threads[w.running]? = some t → t.pending = some c →
    c.call.batch = some (n + 1) → c.call.iter.next = some (some byteRef, iter) →
    ∃ p ms, w.processes[t.process]? = some p ∧ p.memorySet = some ms ∧
      OwnedAt ms (page (c.ptr + c.call.size)) (PhysAddr.floor byteRef)

/-- Every frame of a buffer that a call keeps is still that of its page in the space of the
process, and has not been given back. -/
def KeepsFrames (w : World) : Prop :=
  ∀ (i : Nat) t c (k : Nat) pa, w.threads[i]? = some t → t.pending = some c →
    (c.call.iter.buffers.flatMap Slice.addrs)[k]? = some pa →
    (∃ p ms, w.processes[t.process]? = some p ∧ p.memorySet = some ms ∧
      OwnedAt ms (page (c.ptr + k)) (PhysAddr.floor pa)) ∧
    PhysAddr.floor pa ∉ w.mem.allocator.recycled

end World

/-! ## The invariant -/

/-- The identifier of the thread, if it is alive and of the process. -/
def tidIn (process : Nat) (t : ThreadState) : List Nat :=
  if t.process = process then (t.res.map TaskUserRes.tid).toList else []

/-- The identifiers of the threads of a process that are alive. -/
def World.tids (w : World) (process : Nat) : List Nat :=
  w.threads.flatMap (tidIn process)

/-- The slices of the call are of frames of the space, at the pages that they stand for. -/
structure Captured (ms : MemorySet) (c : PipeCall) : Prop where
  position : c.call.iter.Position c.call.size
  owned : ∀ {i pa : Nat}, (c.call.iter.buffers.flatMap Slice.addrs)[i]? = some pa →
    OwnedAt ms (page (c.ptr + i)) (PhysAddr.floor pa)

/-- The spaces are in order, live threads belong to live processes and have different
identifiers, and the calls that wait have slices of their own space. -/
structure World.Inv (L : Layout) (w : World) : Prop where
  spaces : SpacesInv L w.spaces w.mem w.kernelFrames
  alive : ∀ {i : Nat} {t res}, w.threads[i]? = some t → t.res = some res →
    ∃ p ms, w.processes[t.process]? = some p ∧ p.memorySet = some ms ∧ res.tid < p.tasks
  tids : ∀ {k : Nat} {p}, w.processes[k]? = some p → p.taskResAllocator.Owns (w.tids k)
  pending : ∀ {i : Nat} {t c}, w.threads[i]? = some t → t.pending = some c → t.res ≠ none
  captured : ∀ {i : Nat} {t c p ms}, w.threads[i]? = some t → t.pending = some c →
    w.processes[t.process]? = some p → p.memorySet = some ms → Captured ms c

variable {L : Layout} {parse : List UInt8 → Option ElfFile} {w w' : World} {t : ThreadState}
  {res : TaskUserRes} {p p' : ProcessState} {ms ms' : MemorySet}

theorem OwnedAt.mono {vpn ppn : Nat} (h : OwnedAt ms vpn ppn)
    (hsub : ∀ area ∈ ms.areas, area ∈ ms'.areas) : OwnedAt ms' vpn ppn := by
  obtain ⟨area, hmem, hlookup⟩ := h
  exact ⟨area, hsub area hmem, hlookup⟩

theorem exists_split (hp : processes[k]? = some p) (hms : p.memorySet = some ms) :
    ∃ before after, processes.filterMap ProcessState.memorySet = before ++ ms :: after ∧
      ∀ p' : ProcessState, (processes.set k p').filterMap ProcessState.memorySet =
        before ++ (p'.memorySet.toList ++ after) := by
  obtain ⟨hk, rfl⟩ := List.getElem?_eq_some_iff.mp hp
  refine ⟨(processes.take k).filterMap ProcessState.memorySet,
    (processes.drop (k + 1)).filterMap ProcessState.memorySet, ?_, fun p' => ?_⟩
  · have hsplit : processes = processes.take k ++ processes[k] :: processes.drop (k + 1) := by
      rw [getElem_cons_drop, take_append_drop]
    conv_lhs => rw [hsplit]
    rw [filterMap_append, filterMap_cons_some hms]
  · rw [set_eq_take_append_cons_drop, if_pos hk, filterMap_append, filterMap_cons]
    cases p'.memorySet <;> rfl

theorem getElem?_set_of_some (hp : processes[k]? = some p) (j : Nat) :
    (processes.set k p')[j]? = if j = k then some p' else processes[j]? := by
  obtain ⟨hk, -⟩ := List.getElem?_eq_some_iff.mp hp
  rw [List.getElem?_set]
  by_cases hjk : k = j
  · rw [if_pos hjk, if_pos hk, if_pos hjk.symm]
  · rw [if_neg hjk, if_neg (Ne.symm hjk)]

theorem getElem?_set_same (hp : processes[k]? = some p) (p' : ProcessState) :
    (processes.set k p')[k]? = some p' := by
  rw [getElem?_set_of_some hp, if_pos rfl]

theorem getElem?_set_cases {α : Type} {l : List α} {j : Nat} {a b : α}
    (h : (l.set i a)[j]? = some b) : (j = i ∧ b = a) ∨ (j ≠ i ∧ l[j]? = some b) := by
  rw [List.getElem?_set] at h
  split at h
  · rename_i heq
    rw [ite_none_right_eq_some, Option.some.injEq] at h
    exact .inl ⟨heq.symm, h.2.symm⟩
  · rename_i hne
    exact .inr ⟨Ne.symm hne, h⟩

theorem getElem?_concat_cases {α : Type} {l : List α} {a b : α} (h : (l ++ [a])[i]? = some b) :
    l[i]? = some b ∨ (i = l.length ∧ b = a) := by
  by_cases hlt : i < l.length
  · rw [getElem?_append_left hlt] at h
    exact .inl h
  · rw [getElem?_append_right (by omega), getElem?_singleton,
      ite_none_right_eq_some, Option.some.injEq] at h
    exact .inr ⟨by omega, h.2.symm⟩

theorem count_tids_set {threads : List ThreadState} (ht : threads[i]? = some t) (t' : ThreadState)
    (process id : Nat) :
    ((threads.set i t').flatMap (tidIn process)).count id + (tidIn process t).count id =
      (threads.flatMap (tidIn process)).count id + (tidIn process t').count id :=
  count_flatMap_set ht t' (tidIn process) id

theorem mem_tidIn (hres : t.res = some res) : res.tid ∈ tidIn t.process t := by
  simp [tidIn, hres]

theorem ownedAt_of_covers (h : SpaceInv L ms s rest) {va pa : Nat}
    (hpa : ms.pageTable.translateVa s.bytes (VirtAddr.ofUsize va) = some pa) {area : MapArea}
    (hmem : area ∈ ms.areas) (hcovers : area.Covers (page va)) :
    OwnedAt ms (page va) (PhysAddr.floor pa) := by
  obtain ⟨ppn, hlookup, -, hlt, htranslate⟩ := h.translate_of_covers hmem hcovers
  have hfloor : PhysAddr.floor pa = ppn := by
    rw [PageTable.translateVa_eq, ← page_eq, ← MemorySet.translate, htranslate, map_some,
      Option.some.injEq, PageTableEntry.ppn_new hlt] at hpa
    rw [PhysAddr.floor, pageFloor_eq, ← hpa]
    omega
  exact ⟨area, hmem, hfloor ▸ hlookup⟩

theorem captured_start (h : SpaceInv L ms s rest) {ptr len turns : Nat} {slices : List Slice}
    (hbuf : translatedByteBuffer ms.pageTable.token s.bytes ptr len turns = some slices)
    (hcovers : ∀ va, ptr ≤ va → va < usizeAdd ptr len → ∃ area ∈ ms.areas, area.Covers (page va))
    (kind : CallKind) (pipe : Nat) : Captured ms ⟨pipe, ptr, .start kind ⟨slices⟩⟩ where
  position := UserBuffer.position_intoIter ⟨slices⟩
  owned := by
    intro i pa hpa
    obtain ⟨hlength, hstand⟩ := translatedByteBufferLoop_spec hbuf
    obtain ⟨hi, rfl⟩ := List.getElem?_eq_some_iff.mp hpa
    change i < (slices.flatMap Slice.addrs).length at hi
    obtain ⟨area, hmem, harea⟩ := hcovers (ptr + i) (by omega) (by omega)
    exact ownedAt_of_covers h (StandFor.of_token h hstand i hi) hmem harea

theorem Captured.mono (h : Captured ms c) (hsub : ∀ area ∈ ms.areas, area ∈ ms'.areas) :
    Captured ms' c :=
  ⟨h.position, fun hpa => (h.owned hpa).mono hsub⟩

theorem Captured.step {call : Call} {s : PipeState} (h : Captured ms c)
    (hstep : c.call.step s = some o) (hcall : o.call = some call) :
    Captured ms { c with call := call } := by
  obtain ⟨hposition, hbuffers⟩ := Call.step_position h.position hstep hcall
  refine ⟨hposition, fun {i pa} hpa => ?_⟩
  simp only [hbuffers] at hpa
  exact h.owned hpa

theorem Captured.dealloc {s' : PhysMem} (h : Captured ms c) (hinv : SpaceInv L ms s rest)
    (hres : res.deallocUserRes ms s = some (ms', s')) (hcareful : ∀ k < c.call.len, ∀ area ∈
      ms.areas, IsUserRes res area → ¬area.Covers (page (c.ptr + k))) : Captured ms' c := by
  refine ⟨h.position, fun {i pa} hpa => ?_⟩
  obtain ⟨area, hmem, hlookup⟩ := h.owned hpa
  have hcovers := (hinv.complete area hmem).covers_of_lookup hlookup
  have hlt : i < c.call.len := by
    obtain ⟨hi, -⟩ := List.getElem?_eq_some_iff.mp hpa
    rw [length_flatMap_addrs] at hi
    rw [Call.len, UserBuffer.len_eq]
    exact hi
  have hnot : ¬IsUserRes res area := fun huser => hcareful i hlt area hmem huser hcovers
  exact ⟨area, TaskUserRes.deallocUserRes_areas hinv hres hmem (fun heq => hnot (.inl heq))
    (fun heq => hnot (.inr heq)), hlookup⟩

theorem mem_dataFrames_of_ownedAt {vpn ppn : Nat} (h : OwnedAt ms vpn ppn) :
    ppn ∈ ms.dataFrames := by
  obtain ⟨area, hmem, hlookup⟩ := h
  exact mem_flatMap.mpr ⟨area, hmem, MapArea.mem_frames_of_lookup hlookup⟩

namespace World.Inv

section

variable (h : w.Inv L)
include h

theorem tid_unique {j : Nat} {res' : TaskUserRes} (ht : w.threads[i]? = some t)
    (hres : t.res = some res) (hu : w.threads[j]? = some u) (hres' : u.res = some res')
    (hprocess : u.process = t.process) (htid : res'.tid = res.tid) : i = j := by
  obtain ⟨p, -, hp, -⟩ := h.alive ht hres
  have hcount : (w.threads.flatMap (tidIn t.process)).count res.tid ≤ 1 := by
    have howns := h.tids hp res.tid
    rw [World.tids] at howns
    split at howns <;> omega
  refine eq_of_count_flatMap_le_one hcount ht (mem_tidIn hres) hu ?_
  rw [← hprocess, ← htid]
  exact mem_tidIn hres'

theorem no_other (hruns : w.Runs t res p ms) (hsingle : p.tasks = 1) (hu : w.threads[i]? = some u)
    (hprocess : u.process = t.process) {res' : TaskUserRes} (hres' : u.res = some res') :
    i = w.running := by
  have hzero : ∀ {j : Nat} {v : ThreadState} {r : TaskUserRes}, w.threads[j]? = some v →
      v.process = t.process → v.res = some r → r.tid = 0 := by
    intro j v r hv hv' hr
    obtain ⟨q, _, hq, -, hlt⟩ := h.alive hv hr
    rw [hv', hruns.process, Option.some.injEq] at hq
    rw [← hq, hsingle] at hlt
    omega
  refine (h.tid_unique hruns.thread hruns.res hu hres' hprocess ?_).symm
  rw [hzero hu hprocess hres', hzero hruns.thread rfl hruns.res]

/-- The running thread begins, continues or ends a call. -/
theorem setPending (ht : w.threads[w.running]? = some t) {pending : Option PipeCall}
    (hspaces : SpacesInv L w.spaces mem w.kernelFrames) (hres : pending ≠ none → t.res ≠ none)
    (hcaptured : ∀ c p ms, pending = some c → w.processes[t.process]? = some p →
      p.memorySet = some ms → Captured ms c) (pipes : Nat → PipeState) (next : Nat) :
    World.Inv L { w with
      threads := w.threads.set w.running { t with pending := pending }
      mem := mem
      pipes := pipes
      running := next } where
  spaces := hspaces
  alive := by
    intro i u r hu hr
    rcases getElem?_set_cases hu with ⟨-, rfl⟩ | ⟨-, hu⟩
    · have halive := h.alive ht (show t.res = some r from hr)
      exact halive
    · exact h.alive hu hr
  tids := by
    intro k q hq
    refine (h.tids hq).congr fun id => ?_
    have hcount := count_tids_set ht { t with pending := pending } k id
    have hsame : tidIn k { t with pending := pending } = tidIn k t := rfl
    rw [hsame] at hcount
    exact Nat.add_right_cancel hcount
  pending := by
    intro i u c hu hc
    rcases getElem?_set_cases hu with ⟨-, rfl⟩ | ⟨-, hu⟩
    · refine hres ?_
      simp only at hc
      rw [hc]
      exact some_ne_none c
    · exact h.pending hu hc
  captured := by
    intro i u c q m hu hc hq hm
    rcases getElem?_set_cases hu with ⟨-, rfl⟩ | ⟨-, hu⟩
    · exact hcaptured c q m hc hq hm
    · exact h.captured hu hc hq hm

theorem exists_captured (ht : w.threads[i]? = some t) (hc : t.pending = some c) :
    ∃ p ms, w.processes[t.process]? = some p ∧ p.memorySet = some ms ∧ Captured ms c := by
  obtain ⟨r, hres⟩ := ne_none_iff_exists'.mp (h.pending ht hc)
  obtain ⟨p, ms, hp, hms, -⟩ := h.alive ht hres
  exact ⟨p, ms, hp, hms, h.captured ht hc hp hms⟩

theorem spaces_call (ht : w.threads[i]? = some t) (hpending : t.pending = some c)
    (hstep : c.call.step (w.pipeOf c) = some o) :
    SpacesInv L w.spaces { w.mem with bytes := o.state.mem } w.kernelFrames := by
  obtain ⟨p, ms, hp, hms, hcaptured⟩ := h.exists_captured ht hpending
  obtain ⟨before, after, hspaces, -⟩ := exists_split hp hms
  have hinv := h.spaces
  rw [World.spaces, hspaces] at hinv ⊢
  rcases Call.step_mem hstep with hmem | ⟨byteRef, iter, byte, hnext, hmem⟩
  · rw [hmem]
    exact hinv
  · rw [hmem]
    refine hinv.write fun x hx => Function.update_of_ne (fun heq => hx ?_) _ _
    have howned := hcaptured.owned (hcaptured.position.getElem?_addrs hnext)
    have hdata := mem_dataFrames_of_ownedAt howned
    rw [heq]
    rw [PhysAddr.floor, pageFloor_eq] at hdata
    exact mem_cons_of_mem _ (mem_cons_of_mem _ hdata)

theorem space (hp : w.processes[k]? = some p) (hms : p.memorySet = some ms) :
    ∃ rest, SpaceInv L ms w.mem rest := by
  obtain ⟨before, after, hspaces, -⟩ := exists_split hp hms
  have hinv := h.spaces
  rw [World.spaces, hspaces] at hinv
  exact ⟨_, hinv.space⟩

theorem start (hruns : w.Runs t res p ms) {ptr len turns : Nat} {slices : List Slice}
    (hbuf : translatedByteBuffer ms.pageTable.token w.mem.bytes ptr len turns = some slices)
    (hcareful : Careful w (.start ptr len)) (kind : CallKind) (pipe : Nat)
    (pipes : Nat → PipeState) :
    World.Inv L { w.setThread { t with pending := some ⟨pipe, ptr, .start kind ⟨slices⟩⟩ } with
      pipes := pipes } := by
  have hres : t.res ≠ none := by
    rw [hruns.res]
    exact some_ne_none res
  refine h.setPending hruns.thread h.spaces (fun _ => hres) (fun c p' ms' hc hp' hms' => ?_) pipes
    w.running
  rw [hruns.process, Option.some.injEq] at hp'
  subst hp'
  rw [hruns.space, Option.some.injEq] at hms'
  subst hms'
  obtain ⟨rest, hinv⟩ := h.space hruns.process hruns.space
  rw [← Option.some.inj hc]
  exact captured_start hinv hbuf (hcareful t res p ms hruns) kind pipe

theorem resume {call : Call} (ht : w.threads[w.running]? = some t) (hpending : t.pending = some c)
    (hstep : c.call.step (w.pipeOf c) = some o) (hcall : o.call = some call) (next : Nat) :
    World.Inv L { (w.setThread { t with pending := some { c with call := call } }).setPipe c.pipe
      o.state with running := next } := by
  refine h.setPending ht (h.spaces_call ht hpending hstep) (fun _ => h.pending ht hpending)
    (fun c' p ms hc hp hms => ?_) _ next
  rw [← Option.some.inj hc]
  exact (h.captured ht hpending hp hms).step hstep hcall

theorem ret {n : Nat} {s : PipeState} (ht : w.threads[w.running]? = some t)
    (hpending : t.pending = some c) (hstep : c.call.step (w.pipeOf c) = some (.ret n s)) :
    World.Inv L ((w.setThread { t with pending := none }).setPipe c.pipe
      (releaseWriteEnd s c.call.kind)) := by
  have hspaces := h.spaces_call ht hpending hstep
  have hmem : (releaseWriteEnd s c.call.kind).mem = s.mem := by
    cases c.call.kind <;> rfl
  refine h.setPending ht ?_ (fun hne => absurd rfl hne) (fun c' p ms hc => ?_) _ w.running
  · rw [hmem]
    exact hspaces
  · cases hc

theorem alive_set {r : TaskUserRes} (hp : w.processes[k]? = some p) (hu : w.threads[i]? = some u)
    (hr : u.res = some r) (hms' : p'.memorySet = some ms') (hle : p.tasks ≤ p'.tasks) :
    ∃ q m, (w.processes.set k p')[u.process]? = some q ∧ q.memorySet = some m ∧
      r.tid < q.tasks := by
  obtain ⟨q, m, hq, hm, hlt⟩ := h.alive hu hr
  rw [getElem?_set_of_some hp]
  by_cases hk : u.process = k
  · rw [hk, hp, Option.some.injEq] at hq
    rw [if_pos hk]
    exact ⟨p', ms', rfl, hms', by rw [← hq] at hlt; omega⟩
  · rw [if_neg hk]
    exact ⟨q, m, hq, hm, hlt⟩

theorem captured_set {q : ProcessState} {m : MemorySet} (hp : w.processes[k]? = some p)
    (hms : p.memorySet = some ms) (hms' : p'.memorySet = some ms') (hu : w.threads[i]? = some u)
    (hc : u.pending = some c) (hq : (w.processes.set k p')[u.process]? = some q)
    (hm : q.memorySet = some m) (hkeep : u.process = k → Captured ms c → Captured ms' c) :
    Captured m c := by
  rw [getElem?_set_of_some hp] at hq
  split at hq
  · rename_i hk
    rw [← Option.some.inj hq, hms', Option.some.injEq] at hm
    subst hm
    rw [← hk] at hp
    exact hkeep hk (h.captured hu hc hp hms)
  · exact h.captured hu hc hq hm

theorem threadCreate (hruns : w.Runs t res p ms)
    (halloc : TaskUserRes.allocUserRes ⟨p.taskResAllocator.alloc.1, res.ustackBase⟩ ms w.mem =
      some (ms', mem)) :
    World.Inv L { w.setProcess t.process ⟨some ms', p.taskResAllocator.alloc.2,
        max p.tasks (p.taskResAllocator.alloc.1 + 1)⟩ with
      threads := w.threads ++
        [⟨t.process, some ⟨p.taskResAllocator.alloc.1, res.ustackBase⟩, none⟩]
      mem := mem } := by
  obtain ⟨rest, hinv⟩ := h.space hruns.process hruns.space
  have hareas := TaskUserRes.allocUserRes_areas hinv halloc
  obtain ⟨before, after, hspaces, hset⟩ := exists_split hruns.process hruns.space
  refine ⟨?_, ?_, ?_, ?_, ?_⟩
  · obtain ⟨ms₁, s₁, hfirst, hsecond⟩ := TaskUserRes.allocUserRes_steps halloc
    have hall := h.spaces
    rw [World.spaces, hspaces] at hall
    change SpacesInv L ((w.processes.set _ _).filterMap _) _ _
    rw [hset]
    exact (hall.step hfirst).step hsecond
  · intro i u r hu hr
    rcases getElem?_concat_cases hu with hu | ⟨-, rfl⟩
    · exact h.alive_set hruns.process hu hr rfl (Nat.le_max_left _ _)
    · cases hr
      exact ⟨_, ms', getElem?_set_same hruns.process _, rfl, Nat.le_max_right _ _⟩
  · intro k q hq
    change q.taskResAllocator.Owns ((w.threads ++ [_]).flatMap (tidIn k))
    rw [flatMap_append, flatMap_singleton]
    change (w.processes.set _ _)[k]? = some q at hq
    rw [getElem?_set_of_some hruns.process] at hq
    split at hq
    · rename_i hk
      cases hq
      rw [hk]
      refine (h.tids hruns.process).alloc.congr fun id => ?_
      rw [tidIn, if_pos rfl]
      simp only [map_some, toList_some, count_append, count_cons, count_nil, World.tids]
      omega
    · rename_i hk
      rw [tidIn, if_neg (Ne.symm hk), append_nil]
      exact h.tids hq
  · intro i u c hu hc
    rcases getElem?_concat_cases hu with hu | ⟨-, rfl⟩
    · exact h.pending hu hc
    · cases hc
  · intro i u c q m hu hc hq hm
    rcases getElem?_concat_cases hu with hu | ⟨-, rfl⟩
    · exact h.captured_set hruns.process hruns.space rfl hu hc hq hm
        fun _ hcaptured => hcaptured.mono hareas
    · cases hc

/-- The identifier of a thread that exits is given back. -/
theorem tids_exit (hruns : w.Runs t res p ms)
    (hdealloc : p.taskResAllocator.dealloc res.tid = some p'.taskResAllocator) {q : ProcessState}
    (hq : (w.processes.set t.process p')[k]? = some q) :
    q.taskResAllocator.Owns ((w.threads.set w.running { t with res := none }).flatMap (tidIn k)) := by
  have hcount := fun id => count_tids_set hruns.thread { t with res := none } k id
  have hnone : tidIn k { t with res := none } = [] := by
    rw [tidIn]
    split <;> rfl
  rw [getElem?_set_of_some hruns.process] at hq
  split at hq
  · rename_i hk
    subst hk
    cases hq
    have hown : tidIn t.process t = [res.tid] := by
      rw [tidIn, if_pos rfl, hruns.res]
      rfl
    have hmem : res.tid ∈ w.tids t.process :=
      mem_flatMap.mpr ⟨t, mem_of_getElem? hruns.thread, mem_tidIn hruns.res⟩
    obtain ⟨a, ha, -, howns⟩ := (h.tids hruns.process).dealloc hmem
    cases hdealloc.symm.trans ha
    refine howns.congr fun id => ?_
    have hid := hcount id
    have hpos := count_pos_iff.mpr hmem
    rw [hnone, hown, count_nil, count_singleton] at hid
    rw [World.tids] at hpos
    rw [count_erase, World.tids]
    by_cases heq : res.tid = id
    · subst heq
      simp only [beq_self_eq_true, if_true] at hid ⊢
      omega
    · simp only [beq_iff_eq, heq, if_false] at hid ⊢
      omega
  · rename_i hk
    have hown : tidIn k t = [] := by rw [tidIn, if_neg (Ne.symm hk)]
    refine (h.tids hq).congr fun id => ?_
    have hid := hcount id
    rw [hnone, hown] at hid
    exact hid

theorem exitThread (hruns : w.Runs t res p ms) (hidle : t.pending = none)
    {allocator : RecycleAllocator}
    (hdealloc : p.taskResAllocator.dealloc res.tid = some allocator)
    (hres : res.deallocUserRes ms w.mem = some (ms', mem)) (hcareful : Careful w .exitThread)
    (next : Nat) :
    World.Inv L { (w.setThread { t with res := none }).setProcess t.process
        ⟨some ms', allocator, p.tasks⟩ with
      mem := mem
      running := next } := by
  obtain ⟨rest, hinv⟩ := h.space hruns.process hruns.space
  obtain ⟨before, after, hspaces, hset⟩ := exists_split hruns.process hruns.space
  refine ⟨?_, ?_, fun {k q} hq => h.tids_exit hruns hdealloc hq, ?_, ?_⟩
  · obtain ⟨ms₁, s₁, hfirst, hsecond⟩ := TaskUserRes.deallocUserRes_steps hres
    have hall := h.spaces
    rw [World.spaces, hspaces] at hall
    change SpacesInv L ((w.processes.set _ _).filterMap _) _ _
    rw [hset]
    exact (hall.step hfirst).step hsecond
  · intro i u r hu hr
    rcases getElem?_set_cases hu with ⟨-, rfl⟩ | ⟨-, hu⟩
    · cases hr
    · exact h.alive_set hruns.process hu hr rfl (Nat.le_refl _)
  · intro i u c hu hc
    rcases getElem?_set_cases hu with ⟨-, rfl⟩ | ⟨-, hu⟩
    · cases hidle.symm.trans hc
    · exact h.pending hu hc
  · intro i u c q m hu hc hq hm
    rcases getElem?_set_cases hu with ⟨-, rfl⟩ | ⟨hne, hu⟩
    · cases hidle.symm.trans hc
    · exact h.captured_set hruns.process hruns.space rfl hu hc hq hm fun hprocess hcaptured =>
        hcaptured.dealloc hinv hres (hcareful t res p ms hruns i u c hu hprocess hne hc)

theorem exitMain (hruns : w.Runs t res p ms) (hidle : t.pending = none) {ms₁ : MemorySet}
    {mem₁ : PhysMem} {allocator : RecycleAllocator}
    (hdealloc : p.taskResAllocator.dealloc res.tid = some allocator)
    (hres : res.deallocUserRes ms w.mem = some (ms₁, mem₁))
    (hothers : ∀ (i : Nat) u, w.threads[i]? = some u → u.process = t.process → i ≠ w.running →
      u.res = none) (hrecycle : ms₁.recycleDataPages mem₁ = some (ms', mem)) (next : Nat) :
    World.Inv L { (w.setThread { t with res := none }).setProcess t.process
        ⟨none, allocator, p.tasks⟩ with
      mem := mem
      kernelFrames := ms'.pageTable.frames ++ w.kernelFrames
      running := next } := by
  obtain ⟨before, after, hspaces, hset⟩ := exists_split hruns.process hruns.space
  refine ⟨?_, ?_, fun {k q} hq => h.tids_exit hruns hdealloc hq, ?_, ?_⟩
  · obtain ⟨ms₂, s₂, hfirst, hsecond⟩ := TaskUserRes.deallocUserRes_steps hres
    have hall := h.spaces
    rw [World.spaces, hspaces] at hall
    change SpacesInv L ((w.processes.set _ _).filterMap _) _ _
    rw [hset]
    exact ((hall.step hfirst).step hsecond).recycleDataPages hrecycle
  · intro i u r hu hr
    rcases getElem?_set_cases hu with ⟨-, rfl⟩ | ⟨hne, hu⟩
    · cases hr
    · have hprocess : u.process ≠ t.process := fun heq => by
        rw [hothers i u hu heq hne] at hr
        cases hr
      obtain ⟨q, m, hq, hm, hlt⟩ := h.alive hu hr
      exact ⟨q, m, ((getElem?_set_of_some hruns.process _).trans (if_neg hprocess)).trans hq, hm, hlt⟩
  · intro i u c hu hc
    rcases getElem?_set_cases hu with ⟨-, rfl⟩ | ⟨-, hu⟩
    · cases hidle.symm.trans hc
    · exact h.pending hu hc
  · intro i u c q m hu hc hq hm
    rcases getElem?_set_cases hu with ⟨-, rfl⟩ | ⟨-, hu⟩
    · cases hidle.symm.trans hc
    · change (w.processes.set _ _)[_]? = _ at hq
      rw [getElem?_set_of_some hruns.process] at hq
      split at hq
      · rw [← Option.some.inj hq] at hm
        cases hm
      · exact h.captured hu hc hq hm

theorem fork (hruns : w.Runs t res p ms) {child : MemorySet}
    (hcopy : MemorySet.fromExistedUser L.strampoline ms w.mem = some (child, mem)) :
    World.Inv L { w with
      processes := w.processes ++ [⟨some child, RecycleAllocator.new.alloc.2, 1⟩]
      threads := w.threads ++ [⟨w.processes.length,
        some ⟨RecycleAllocator.new.alloc.1, res.ustackBase⟩, none⟩]
      mem := mem } := by
  have hprocess : ∀ {i : Nat} {u : ThreadState} {r : TaskUserRes}, w.threads[i]? = some u →
      u.res = some r → u.process < w.processes.length := by
    intro i u r hu hr
    obtain ⟨q, -, hq, -⟩ := h.alive hu hr
    exact (List.getElem?_eq_some_iff.mp hq).1
  obtain ⟨before, after, hspaces, -⟩ := exists_split hruns.process hruns.space
  refine ⟨?_, ?_, ?_, ?_, ?_⟩
  · have hall := h.spaces
    rw [World.spaces, hspaces] at hall
    have hcopying := hall.space.fromExistedUser_yields.of_eq_some hcopy
    have hchild : SpaceInv L child mem
        ((before ++ ms :: after ++ []).flatMap MemorySet.frames ++ w.kernelFrames) := by
      have hsecond := hcopying.both.second
      refine ⟨hsecond.table, hsecond.owns.congr fun id => ?_, hsecond.complete, hsecond.apart⟩
      simp only [flatMap_append, flatMap_cons, flatMap_nil, count_append, count_nil]
      omega
    rw [← append_nil (before ++ ms :: after)] at hall
    have hadd := hall.add hchild (hcopying.bytes.mono fun q hq =>
      mem_cons_of_mem _ (mem_cons_of_mem _ hq))
    change SpacesInv L ((w.processes ++ [_]).filterMap _) _ _
    rw [filterMap_append, hspaces]
    exact hadd
  · intro i u r hu hr
    rcases getElem?_concat_cases hu with hu | ⟨-, rfl⟩
    · obtain ⟨q, m, hq, hm, hlt⟩ := h.alive hu hr
      exact ⟨q, m, (getElem?_append_left (hprocess hu hr)).trans hq, hm, hlt⟩
    · cases hr
      exact ⟨_, child, getElem?_concat_length, rfl, Nat.zero_lt_one⟩
  · intro k q hq
    change q.taskResAllocator.Owns ((w.threads ++ [_]).flatMap (tidIn k))
    rw [flatMap_append, flatMap_singleton]
    rcases getElem?_concat_cases hq with hq | ⟨rfl, rfl⟩
    · obtain ⟨hk, -⟩ := List.getElem?_eq_some_iff.mp hq
      have hnew : tidIn k ⟨w.processes.length,
          some ⟨RecycleAllocator.new.alloc.1, res.ustackBase⟩, none⟩ = [] :=
        if_neg (Ne.symm (Nat.ne_of_lt hk))
      rw [hnew, append_nil]
      exact h.tids hq
    · have hnone : w.threads.flatMap (tidIn w.processes.length) = [] := by
        refine flatMap_eq_nil_iff.mpr fun u hu => ?_
        obtain ⟨i, hi⟩ := getElem?_of_mem hu
        cases hr : u.res with
        | none =>
          rw [tidIn, hr]
          split <;> rfl
        | some r => exact if_neg (Nat.ne_of_lt (hprocess hi hr))
      rw [hnone, tidIn, if_pos rfl]
      exact RecycleAllocator.owns_new.alloc
  · intro i u c hu hc
    rcases getElem?_concat_cases hu with hu | ⟨-, rfl⟩
    · exact h.pending hu hc
    · cases hc
  · intro i u c q m hu hc hq hm
    rcases getElem?_concat_cases hu with hu | ⟨-, rfl⟩
    · obtain ⟨r, hr⟩ := ne_none_iff_exists'.mp (h.pending hu hc)
      exact h.captured hu hc ((getElem?_append_left (hprocess hu hr)).symm.trans hq) hm
    · cases hc

theorem exec (hruns : w.Runs t res p ms) (hidle : t.pending = none) (hsingle : p.tasks = 1)
    {ms₁ : MemorySet} {mem₁ mem₂ : PhysMem} {elfData : List UInt8} {base entry : Nat}
    (hload : MemorySet.fromElf parse L.strampoline w.mem elfData = some ((ms₁, base, entry),
      mem₁)) (hdrop : ms.drop mem₁ = some mem₂)
    (halloc : TaskUserRes.allocUserRes ⟨res.tid, base⟩ ms₁ mem₂ = some (ms', mem)) :
    World.Inv L { (w.setThread { t with res := some ⟨res.tid, base⟩ }).setProcess t.process
        { p with memorySet := some ms' } with
      mem := mem } := by
  obtain ⟨before, after, hspaces, hset⟩ := exists_split hruns.process hruns.space
  refine ⟨?_, ?_, ?_, ?_, ?_⟩
  · have hall := h.spaces
    rw [World.spaces, hspaces] at hall
    obtain ⟨ms₂, s₂, hfirst, hsecond⟩ := TaskUserRes.allocUserRes_steps halloc
    change SpacesInv L ((w.processes.set _ _).filterMap _) _ _
    rw [hset]
    exact ((hall.replace hload hdrop).step hfirst).step hsecond
  · intro i u r hu hr
    rcases getElem?_set_cases hu with ⟨-, rfl⟩ | ⟨-, hu⟩
    · cases hr
      obtain ⟨q, -, hq, -, hlt⟩ := h.alive hruns.thread hruns.res
      rw [hruns.process, Option.some.injEq] at hq
      exact ⟨_, ms', getElem?_set_same hruns.process _, rfl, by rw [hq]; exact hlt⟩
    · exact h.alive_set hruns.process hu hr rfl (Nat.le_refl _)
  · intro k q hq
    have hsame : tidIn k { t with res := some ⟨res.tid, base⟩ } = tidIn k t := by
      rw [tidIn, tidIn, hruns.res]
      rfl
    have howns : q.taskResAllocator.Owns (w.tids k) := by
      change (w.processes.set _ _)[k]? = _ at hq
      rw [getElem?_set_of_some hruns.process] at hq
      split at hq
      · rename_i hk
        have htids := h.tids hruns.process
        rw [hk, ← Option.some.inj hq]
        exact htids
      · exact h.tids hq
    refine howns.congr fun id => ?_
    have hcount := count_tids_set hruns.thread { t with res := some ⟨res.tid, base⟩ } k id
    rw [hsame] at hcount
    exact Nat.add_right_cancel hcount
  · intro i u c hu hc
    rcases getElem?_set_cases hu with ⟨-, rfl⟩ | ⟨-, hu⟩
    · cases hidle.symm.trans hc
    · exact h.pending hu hc
  · intro i u c q m hu hc hq hm
    rcases getElem?_set_cases hu with ⟨-, rfl⟩ | ⟨hne, hu⟩
    · cases hidle.symm.trans hc
    · -- no other thread of the process is alive
      obtain ⟨r, hr⟩ := ne_none_iff_exists'.mp (h.pending hu hc)
      exact h.captured_set hruns.process hruns.space rfl hu hc hq hm fun hprocess _ =>
        absurd (h.no_other hruns hsingle hu hprocess hr) hne

end

theorem boot (h : Boot L parse w) : w.Inv L := by
  obtain ⟨ms, s, s₁, elfData, base, entry, ms₁, howns, hload, halloc, hprocesses, hthreads⟩ :=
    h.space
  refine ⟨?_, ?_, ?_, ?_, ?_⟩
  · obtain ⟨hinv, hbytes⟩ := SpaceInv.of_fromElf howns hload
    obtain ⟨ms₂, s₂, hfirst, hsecond⟩ := TaskUserRes.allocUserRes_steps halloc
    have hnone : SpacesInv L ([] ++ []) s w.kernelFrames := ⟨by simp, howns⟩
    rw [World.spaces, hprocesses]
    exact ((hnone.add hinv hbytes).step hfirst).step hsecond
  · intro i t res ht hres
    rw [hthreads, getElem?_singleton, ite_none_right_eq_some] at ht
    obtain ⟨-, ht⟩ := ht
    cases ht
    cases hres
    rw [hprocesses]
    exact ⟨_, ms, rfl, rfl, Nat.zero_lt_one⟩
  · intro k p hp
    rw [hprocesses, getElem?_singleton, ite_none_right_eq_some] at hp
    obtain ⟨rfl, hp⟩ := hp
    cases hp
    rw [World.tids, hthreads]
    exact RecycleAllocator.owns_new.alloc
  · intro i t c ht hc
    rw [hthreads, getElem?_singleton, ite_none_right_eq_some] at ht
    cases ht.2
    cases hc
  · intro i t c p ms ht hc
    rw [hthreads, getElem?_singleton, ite_none_right_eq_some] at ht
    cases ht.2
    cases hc

theorem step (h : w.Inv L) {a : Action} (hcareful : Careful w a) (hstep : Step L parse w a w') :
    w'.Inv L := by
  cases hstep with
  | start kind pipe hruns hidle hbuf => exact h.start hruns hbuf hcareful kind pipe _
  | more hthread hpending hstep => exact h.resume hthread hpending hstep rfl w.running
  | suspend next hthread hpending hstep => exact h.resume hthread hpending hstep rfl next
  | ret hthread hpending hstep => exact h.ret hthread hpending hstep
  | threadCreate hruns hidle halloc => exact h.threadCreate hruns halloc
  | exitThread next hruns hidle htid hdealloc hres =>
    exact h.exitThread hruns hidle hdealloc hres hcareful next
  | exitMain next hruns hidle htid hdealloc hres hothers hrecycle =>
    exact h.exitMain hruns hidle hdealloc hres hothers hrecycle next
  | fork hruns hidle hsingle hcopy => exact h.fork hruns hcopy
  | exec hruns hidle hsingle hload hdrop halloc =>
    exact h.exec hruns hidle hsingle hload hdrop halloc
  | other next hidle hsame howns hpipes =>
    exact ⟨h.spaces.other hsame howns, h.alive, h.tids, h.pending, h.captured⟩

theorem of_reaches (h : Reaches L parse Careful w) : w.Inv L := by
  induction h with
  | boot hboot => exact boot hboot
  | step _ hcareful hstep ih => exact ih.step hcareful hstep

theorem touchesOwnFrame (h : w.Inv L) : w.TouchesOwnFrame := by
  intro t c n byteRef iter ht hc _ hnext
  obtain ⟨p, ms, hp, hms, hcaptured⟩ := h.exists_captured ht hc
  exact ⟨p, ms, hp, hms, hcaptured.owned (hcaptured.position.getElem?_addrs hnext)⟩

theorem keepsFrames (h : w.Inv L) : w.KeepsFrames := by
  intro i t c k pa ht hc hpa
  obtain ⟨p, ms, hp, hms, hcaptured⟩ := h.exists_captured ht hc
  have howned := hcaptured.owned hpa
  refine ⟨⟨p, ms, hp, hms, howned⟩, ?_⟩
  obtain ⟨rest, hinv⟩ := h.space hp hms
  refine hinv.owns.notMem_recycled (mem_append_left _ ?_)
  exact mem_append_right _ (mem_dataFrames_of_ownedAt howned)

end World.Inv

/-- In every careful run the calls transfer bytes through frames of their own space, and no
frame that a call keeps is given back. -/
theorem pending_calls_keep_frames (h : Reaches L parse Careful w) :
    w.TouchesOwnFrame ∧ w.KeepsFrames := by
  have hinv := World.Inv.of_reaches h
  exact ⟨hinv.touchesOwnFrame, hinv.keepsFrames⟩

/-- A new pipe whose write end is open. -/
def openPipe : PipeState where
  ring := .new
  mem := fun _ => 0
  strong := 1
  stored := []
  handed := []

/-- The main thread writes a byte of its stack into a pipe: it is about to transfer the byte. -/
theorem pending_calls_keep_frames_stack : ∃ w t c byteRef iter,
    Reaches smallLayout (fun _ => some ⟨[], [], 0⟩) Careful w ∧
      w.threads[w.running]? = some t ∧ t.pending = some c ∧ c.ptr = 0x1000 ∧
      c.call.batch = some 32 ∧ c.call.iter.next = some (some byteRef, iter) ∧
      w.TouchesOwnFrame ∧ w.KeepsFrames := by
  have hfacts : ((MemorySet.fromElf (fun _ => some ⟨[], [], 0⟩) smallLayout.strampoline
      ⟨fun _ => 7, ⟨100, 200, []⟩⟩ []).bind fun r₁ =>
        (TaskUserRes.allocUserRes ⟨0, 4096⟩ r₁.1.1 r₁.2).map fun r =>
          (r₁.1.2, translatedByteBuffer r.1.pageTable.token r.2.bytes 0x1000 1 1,
            decide (∃ area ∈ r.1.areas, area.startVpn ≤ page 0x1000 ∧ page 0x1000 < area.endVpn))) =
      some ((4096, 0), some [⟨421888, 1⟩], true) := by decide +kernel
  obtain ⟨⟨⟨ms₁, _⟩, s₁⟩, hload, hfacts⟩ := Option.bind_eq_some_iff.mp hfacts
  obtain ⟨⟨ms, s⟩, halloc, hfacts⟩ := Option.map_eq_some_iff.mp hfacts
  simp only [Prod.mk.injEq, decide_eq_true_eq] at hfacts
  obtain ⟨rfl, hbuf, harea⟩ := hfacts
  have hboot : Reaches smallLayout (fun _ => some ⟨[], [], 0⟩) Careful
      ⟨[⟨some ms, RecycleAllocator.new.alloc.2, 1⟩], [⟨0, some ⟨0, 4096⟩, none⟩], 0, s,
        fun _ => openPipe, []⟩ :=
    .boot ⟨⟨ms, _, s₁, [], 4096, 0, ms₁, owns_smallLayout, hload, halloc, rfl, rfl⟩, rfl,
      fun _ => rfl⟩
  have hstart := hboot.step
    (by
      intro t res q m hruns va hlow hhigh
      cases hruns.thread
      cases hruns.process
      cases hruns.space
      have hva : va = 0x1000 := Nat.le_antisymm (Nat.le_of_lt_succ hhigh) hlow
      rw [hva]
      exact harea)
    (.start .write 0 ⟨rfl, rfl, rfl, rfl⟩ rfl hbuf)
  have hmore := hstart.step (show Careful _ .tau from trivial) (.more rfl rfl rfl)
  exact ⟨_, _, _, _, _, hmore, rfl, rfl, rfl, rfl, rfl, pending_calls_keep_frames hmore⟩

/-- The main thread reads a pipe into the stack of a second thread, which writes a byte and
exits: when the main thread gets the byte, the page is in no area and its frame has been
given back. -/
theorem read_into_exited_stack : ∃ w t c byteRef iter,
    Reaches smallLayout (fun _ => some ⟨[], [], 0⟩) (fun _ _ => True) w ∧
      w.threads[w.running]? = some t ∧ t.pending = some c ∧ c.call.batch = some 1 ∧
      c.call.iter.next = some (some byteRef, iter) ∧
      PhysAddr.floor byteRef ∈ w.mem.allocator.recycled ∧
      ¬w.TouchesOwnFrame ∧ ¬w.KeepsFrames := by
  have hfacts : ((MemorySet.fromElf (fun _ => some ⟨[], [], 0⟩) smallLayout.strampoline
      ⟨fun _ => 7, ⟨100, 200, []⟩⟩ []).bind fun r₁ =>
        (TaskUserRes.allocUserRes ⟨0, 4096⟩ r₁.1.1 r₁.2).bind fun r₀ =>
          (TaskUserRes.allocUserRes ⟨1, 4096⟩ r₀.1 r₀.2).bind fun r =>
            (TaskUserRes.deallocUserRes ⟨1, 4096⟩ r.1 r.2).map fun r' =>
              (r₁.1.2, translatedByteBuffer r.1.pageTable.token r.2.bytes 0x1000 1 1,
                translatedByteBuffer r.1.pageTable.token r.2.bytes 0x4000 1 1,
                decide (PhysAddr.floor 442368 ∈ r'.2.allocator.recycled),
                decide (∀ area ∈ r'.1.areas, area.dataFrames.lookup (page 0x4000) = none))) =
      some ((4096, 0), some [⟨421888, 1⟩], some [⟨442368, 1⟩], true, true) := by decide +kernel
  obtain ⟨⟨⟨ms₁, _⟩, s₁⟩, hload, hfacts⟩ := Option.bind_eq_some_iff.mp hfacts
  obtain ⟨⟨ms₀, s₀⟩, halloc₀, hfacts⟩ := Option.bind_eq_some_iff.mp hfacts
  obtain ⟨⟨ms, s⟩, halloc, hfacts⟩ := Option.bind_eq_some_iff.mp hfacts
  obtain ⟨⟨ms', s'⟩, hdealloc, hfacts⟩ := Option.map_eq_some_iff.mp hfacts
  simp only [Prod.mk.injEq, decide_eq_true_eq] at hfacts
  obtain ⟨rfl, hbuf, hbuf', hfreed, hgone⟩ := hfacts
  have hboot : Reaches smallLayout (fun _ => some ⟨[], [], 0⟩) (fun _ _ => True)
      ⟨[⟨some ms₀, RecycleAllocator.new.alloc.2, 1⟩], [⟨0, some ⟨0, 4096⟩, none⟩], 0, s₀,
        fun _ => openPipe, []⟩ :=
    .boot ⟨⟨ms₀, _, s₁, [], 4096, 0, ms₁, owns_smallLayout, hload, halloc₀, rfl, rfl⟩, rfl,
      fun _ => rfl⟩
  have hcreate := hboot.step trivial (.threadCreate ⟨rfl, rfl, rfl, rfl⟩ rfl halloc)
  have hread := hcreate.step trivial (.start .read 0 ⟨rfl, rfl, rfl, rfl⟩ rfl hbuf')
  have hwaits := hread.step trivial (.suspend 1 rfl rfl rfl)
  have hwrite := hwaits.step trivial (.start .write 0 ⟨rfl, rfl, rfl, rfl⟩ rfl hbuf)
  have hbatch := hwrite.step trivial (.more rfl rfl rfl)
  have hbyte := hbatch.step trivial (.more rfl rfl rfl)
  have hret := hbyte.step trivial (.ret rfl rfl rfl)
  have hexit := hret.step trivial
    (.exitThread 0 ⟨rfl, rfl, rfl, rfl⟩ rfl Nat.one_ne_zero rfl hdealloc)
  have hresumed := hexit.step trivial (.more rfl rfl rfl)
  have hnot : ∀ ppn, ¬OwnedAt ms' (page 0x4000) ppn := by
    rintro ppn ⟨area, hmem, howned⟩
    cases (hgone area hmem).symm.trans howned
  refine ⟨_, _, _, _, _, hresumed, rfl, rfl, rfl, rfl, hfreed, fun htouches => ?_,
    fun hkeeps => ?_⟩
  · obtain ⟨q, m, hq, hm, howned⟩ := htouches _ _ 0 _ _ rfl rfl rfl rfl
    cases hq
    cases hm
    exact hnot _ howned
  · exact (hkeeps 0 _ _ 0 _ rfl rfl rfl).2 hfreed

end RCore.Syscall
