import RCore.Lib.Assembly
import RCore.Mm.KernelSpace
import RCore.Syscall.UserAccess

/-!
# The trampoline

`__alltraps` saves the registers of a thread in its trap context, which is mapped in the user
space only, and goes over to the kernel space; `__restore` does the opposite.  Both fetch
their instructions from the trampoline page, in one space before and in the other after
`satp` is written.
-/

namespace RCore.Trap

open RCore.Mm RCore.Lib.Assembly RCore.Task RCore.Syscall
open Function Setting List Option PageTableEntry

/-! ## The code -/

/-- `x1`, `x3` and the `.rept` block from `x5` on. -/
def gpRegs : List Reg := 1 :: 3 :: (range' 5 27).map (BitVec.ofNat 5)

def gpSlots : List (Reg × Nat) := gpRegs.map fun r => (r, r.toNat)

def alltraps : List Instr :=
  .csrrw 2 .sscratch 2 :: (saves 2 gpSlots ++
    .csrr 5 .sstatus :: .csrr 6 .sepc :: (saves 2 [(5, 32), (6, 33)] ++
    .csrr 7 .sscratch :: (saves 2 [(7, 2)] ++
    [.ld 5 (8 * 34) 2, .ld 6 (8 * 36) 2, .ld 2 (8 * 35) 2, .csrw .satp 5, .sfenceVma, .jr 6])))

def restore : List Instr :=
  .csrw .satp 11 :: .sfenceVma :: .csrw .sscratch 10 :: .mv 2 10 :: (loads 2 [(5, 32), (6, 33)] ++
    .csrw .sstatus 5 :: .csrw .sepc 6 :: (loads 2 gpSlots ++ [.ld 2 (8 * 2) 2, .sret]))

/-- A word of the trap context at an address: the registers from 0 on, then `sstatus`, `sepc`,
`kernel_satp`, `kernel_sp` and `trap_handler`. -/
def trapCxWord (mem : Memory) (pa k : Nat) : Word := readWord mem (pa + 8 * k)

/-- The user space maps the trampoline and the trap context, the kernel space the trampoline. -/
structure Ready (S : Setting) (user kernel : Word) : Prop where
  code : S.Maps user S.code
  context : S.Maps user S.data
  kernel : S.Maps kernel S.code
  aligned : S.data.va % 8 = 0
  len : S.data.len = 8 * 37
  room : totalSize S.size (alltraps ++ restore) ≤ S.code.len

/-- What `__alltraps` has done to the machine `c`. -/
structure Saved (S : Setting) (c : Core) (m : Hart) : Prop where
  regs : ∀ r : Reg, r ≠ 0 → r ≠ 4 → trapCxWord m.mem S.data.pa r.toNat = c.x r
  sstatus : trapCxWord m.mem S.data.pa 32 = c.csr .sstatus
  sepc : trapCxWord m.mem S.data.pa 33 = c.csr .sepc
  kept : ∀ k, 33 < k → trapCxWord m.mem S.data.pa k = trapCxWord c.mem S.data.pa k
  apart : S.data.Apart S.mem m.mem
  satp : m.csr .satp = trapCxWord c.mem S.data.pa 34
  sp : m.x 2 = trapCxWord c.mem S.data.pa 35
  pc : m.pc = trapCxWord c.mem S.data.pa 36

/-- What `__restore` has done to the machine `c`, with the context at `pa`. -/
structure Restored (c : Core) (pa : Nat) (m : Hart) : Prop where
  mem : m.mem = c.mem
  pc : m.pc = trapCxWord c.mem pa 33
  sstatus : m.csr .sstatus = sretStatus (trapCxWord c.mem pa 32)
  satp : m.csr .satp = c.x 11
  sscratch : m.csr .sscratch = c.x 10
  tp : m.x 4 = c.x 4
  regs : ∀ r : Reg, r ≠ 0 → r ≠ 4 → m.x r = trapCxWord c.mem pa r.toNat

/-! ## The two runs -/

section Runs

variable {S : Setting} {c : Core}

theorem gpSlots_le : ∀ k ∈ gpSlots.map Prod.snd, k ≤ 31 := by
  decide

theorem gpSlots_fit {user kernel : Word} (h : Ready S user kernel) :
    ∀ slot ∈ gpSlots, 8 * slot.2 + 8 ≤ S.data.len := by
  rw [h.len]
  decide

theorem leads_alltraps (h : Ready S (c.csr .satp) (trapCxWord c.mem S.data.pa 34)) (hok : S.Ok c)
    (hscratch : (c.csr .sscratch).toNat = S.data.va) :
    S.Leads alltraps c (Saved S c) := by
  have hlen := h.len
  unfold alltraps
  refine Leads.next hok rfl rfl ?_
  refine Leads.saves hok h.context hscratch h.aligned (gpSlots_fit h) (by decide) ?_
  intro mem₁ hgp hok₁
  refine Leads.next hok₁ rfl rfl (Leads.next hok₁ rfl rfl ?_)
  refine Leads.saves hok₁ h.context hscratch h.aligned (by simp [hlen]) (by decide) ?_
  intro mem₂ hcsr hok₂
  refine Leads.next hok₂ rfl rfl ?_
  refine Leads.saves hok₂ h.context hscratch h.aligned (by simp [hlen]) (by decide) ?_
  intro mem₃ husp hok₃
  have hkept : ∀ k, 33 < k → trapCxWord mem₃ S.data.pa k = trapCxWord c.mem S.data.pa k := by
    intro k hk
    calc trapCxWord mem₃ S.data.pa k
        = trapCxWord mem₂ S.data.pa k := husp.kept k (by simp; omega)
      _ = trapCxWord mem₁ S.data.pa k := hcsr.kept k (by simp; omega)
      _ = trapCxWord c.mem S.data.pa k := hgp.kept k fun hin => absurd (gpSlots_le k hin) (by omega)
  refine Leads.ld hok₃ h.context hscratch h.aligned (by decide) (by omega) ?_
  refine Leads.ld hok₃ h.context hscratch h.aligned (by decide) (by omega) ?_
  refine Leads.ld hok₃ h.context hscratch h.aligned (by decide) (by omega) ?_
  refine Leads.next hok₃ rfl rfl ?_
  -- from here on the kernel space is in use
  have hkernel := h.kernel
  rw [← hkept 34 (by decide)] at hkernel
  have hok₄ := And.intro hkernel hok₃.2
  refine Leads.next hok₄ rfl rfl (Leads.jump hok₄ rfl rfl ?_)
  refine ⟨?_, ?_, ?_, hkept, hok₃.2, hkept 34 (by decide), hkept 35 (by decide),
    hkept 36 (by decide)⟩
  · intro r hzero htp
    by_cases hsp : r = 2
    · rw [hsp]
      exact husp.word (7, 2) (by simp)
    · have hgpr : r ∈ gpRegs := by
        revert r
        decide
      have hne : r.toNat ≠ 2 := fun heq => hsp (BitVec.eq_of_toNat_eq heq)
      calc trapCxWord mem₃ S.data.pa r.toNat
          = trapCxWord mem₂ S.data.pa r.toNat := husp.kept _ (by simp [hne])
        _ = trapCxWord mem₁ S.data.pa r.toNat := hcsr.kept _ (by simp; omega)
        _ = _ := hgp.word (r, r.toNat) (mem_map_of_mem hgpr)
        _ = c.x r := update_of_ne hsp _ _
  · calc trapCxWord mem₃ S.data.pa 32
        = trapCxWord mem₂ S.data.pa 32 := husp.kept 32 (by decide)
      _ = c.csr .sstatus := hcsr.word (5, 32) (by simp)
  · calc trapCxWord mem₃ S.data.pa 33
        = trapCxWord mem₂ S.data.pa 33 := husp.kept 33 (by decide)
      _ = c.csr .sepc := hcsr.word (6, 33) (by simp)

theorem loaded_eq {mem : Memory} {pa : Nat} {r : Reg} {regs : List Reg} {x : Reg → Word}
    (h : r ∈ regs ∨ x r = readWord mem (pa + 8 * r.toNat)) :
    loaded mem pa (regs.map fun r => (r, r.toNat)) x r = readWord mem (pa + 8 * r.toNat) := by
  induction regs generalizing x with
  | nil => exact h.resolve_left not_mem_nil
  | cons first regs ih =>
    apply ih
    by_cases hr : r = first
    · rw [hr]
      exact .inr (update_self _ _ _)
    · apply h.imp fun hmem => (mem_cons.mp hmem).resolve_left hr
      exact (update_of_ne hr _ _).trans

theorem leads_restore (h : Ready S (c.x 11) (c.csr .satp)) (hok : S.Ok c)
    (hbase : (c.x 10).toNat = S.data.va) :
    S.Leads restore c (Restored c S.data.pa) := by
  have hlen := h.len
  have hok₁ := And.intro h.code hok.2
  unfold restore
  refine Leads.next hok rfl rfl (Leads.next hok₁ rfl rfl ?_)
  refine Leads.next hok₁ rfl rfl (Leads.next hok₁ rfl rfl ?_)
  refine Leads.loads hok₁ h.context hbase h.aligned (by simp [hlen]) (by decide) ?_
  refine Leads.next hok₁ rfl rfl (Leads.next hok₁ rfl rfl ?_)
  refine Leads.loads hok₁ h.context hbase h.aligned (gpSlots_fit h) (by decide) ?_
  refine Leads.ld hok₁ h.context hbase h.aligned (by decide) (by omega) ?_
  refine Leads.jump hok₁ rfl rfl ⟨rfl, rfl, rfl, rfl, rfl, rfl, ?_⟩
  intro r hzero htp
  by_cases hsp : r = 2
  · rw [hsp]
    rfl
  · have hmem : r ∈ gpRegs := by
      revert r
      decide
    exact (update_of_ne hsp _ _).trans (loaded_eq (.inl hmem))

/-- A thread traps: its registers go into its trap context, nothing else is written, and the
kernel goes on in its own space, at `trap_handler` and on the kernel stack of the thread.
Whenever the kernel returns to the thread, the thread has the registers that its context holds
then; what the kernel left alone there is as before the trap, but for `tp`. -/
theorem trap_round_trip (h : Ready S (c.csr .satp) (trapCxWord c.mem S.data.pa 34))
    (hmem : c.mem = S.mem) (hscratch : (c.csr .sscratch).toNat = S.data.va) :
    ∃ m, run S.translate S.size alltraps S.code.pa ⟨c, BitVec.ofNat 64 S.code.va⟩ = some m ∧
      Saved S c m ∧ ∀ {cx : Window} {c' : Core},
        Ready { S with mem := c'.mem, data := cx } (c'.x 11) (c'.csr .satp) →
        (c'.x 10).toNat = cx.va →
        ∃ m', run S.translate S.size restore (S.code.pa + totalSize S.size alltraps)
            ⟨c', BitVec.ofNat 64 (S.code.va + totalSize S.size alltraps)⟩ = some m' ∧
          Restored c' cx.pa m' ∧ ∀ r : Reg, r ≠ 0 → r ≠ 4 →
            trapCxWord c'.mem cx.pa r.toNat = trapCxWord m.mem S.data.pa r.toNat → m'.x r = c.x r := by
  have hroom := h.room
  rw [totalSize_append] at hroom
  have hok : S.Ok c := ⟨h.code, fun x _ => congrFun hmem x⟩
  obtain ⟨m, hrun, hsaved⟩ := leads_alltraps h hok hscratch 0 (by omega)
  refine ⟨m, hrun, hsaved, ?_⟩
  intro cx c' h' ha0
  obtain ⟨m', hrun', hrestored⟩ :=
    leads_restore h' ⟨h'.kernel, fun _ _ => rfl⟩ ha0 (totalSize S.size alltraps) hroom
  refine ⟨m', hrun', hrestored, ?_⟩
  intro r hzero htp hsame
  calc m'.x r = trapCxWord c'.mem cx.pa r.toNat := hrestored.regs r hzero htp
    _ = trapCxWord m.mem S.data.pa r.toNat := hsame
    _ = c.x r := hsaved.regs r hzero htp

/-- A thread in the space of the kernel, with addresses mapped to themselves. -/
theorem trap_round_trip_identity : ∃ (S : Setting) (c : Core) (m : Hart),
    run S.translate S.size alltraps S.code.pa ⟨c, BitVec.ofNat 64 S.code.va⟩ = some m ∧
      Saved S c m := by
  let S : Setting := ⟨fun _ _ va => some va, fun _ => 4, fun _ => by decide, fun _ => 0,
    ⟨0x1000, 0x1000, 4096, by decide⟩, ⟨0x2000, 0x2000, 8 * 37, by decide⟩⟩
  let c : Core := ⟨fun _ => 7, fun _ => 0x2000, fun _ => 0⟩
  have hmaps : ∀ satp w, w.pa = w.va → S.Maps satp w := fun _ _ heq _ _ _ _ => by rw [heq]
  obtain ⟨m, hrun, hsaved, -⟩ := @trap_round_trip S c ⟨hmaps _ _ rfl, hmaps _ _ rfl, hmaps _ _ rfl,
    by decide, by decide, by decide⟩ rfl rfl
  exact ⟨S, c, m, hrun, hsaved⟩

end Runs

/-! ## Through the page tables -/

/-- The walk of the page table that `satp` names, for the addresses that Sv39 has. -/
def mmu (satp : Word) (bytes : Memory) (va : Nat) : Option Nat := do
  if 2 ^ 38 ≤ va ∧ va < 2 ^ 64 - 2 ^ 38 then none else
  let pte ← (PageTable.fromToken satp.toNat).translate bytes (page va)
  if pte.isValid then some (PhysPageNum.toPhysAddr pte.ppn + va % pageSize) else none

theorem trapCxBottomFromTid_eq {tid : Nat} (h : tid + 2 ≤ 2 ^ 26) :
    trapCxBottomFromTid tid = 2 ^ 64 - 4096 * (tid + 2) := by
  rw [trapCxBottomFromTid, trapContextBase, trampoline, pageSize]
  omega

def codeWindow (L : Layout) : Window := ⟨trampoline, 4096 * L.trampolinePpn, 4096, by decide⟩

def contextWindow {tid : Nat} (h : tid + 2 ≤ 2 ^ 26) (ppn : Nat) : Window :=
  ⟨trapCxBottomFromTid tid, 4096 * ppn, 8 * 37, by rw [trapCxBottomFromTid_eq h]; omega⟩

section Spaces

variable {L : Layout} {fixed framed : List MapArea} {kms ms : MemorySet} {s : PhysMem}
  {rest others : List Nat} {area : MapArea} {tid ppn : Nat} {user kernel satp : Word}

theorem maps_of_table {S : Setting} (hS : S.translate = mmu) {t : PageTable} {mapping : Mapping}
    {nodes : List (Fin 512) → Option Nat} (htable : TableInv t S.mem mapping nodes)
    (hsatp : satp.toNat = t.token) (hdata : S.data.pa = 4096 * ppn) (hctx : S.data.len ≤ 4096)
    (hnot : ppn ∉ t.frames) {w : Window} {p : Nat} {flags : PTEFlags}
    (he : mapping (page w.va) = some (p, flags)) (hpa : w.pa = 4096 * p)
    (haligned : w.va % 4096 = 0) (hlen : w.len ≤ 4096) (hhigh : 2 ^ 64 - 2 ^ 38 ≤ w.va) :
    S.Maps satp w := by
  intro mem hapart off hoff
  -- the frame of the context is none of the table
  have htable' : TableInv t mem mapping nodes := htable.congr fun x hx => hapart x (by
    have hne : x / 4096 ≠ ppn := fun heq => hnot (heq ▸ hx)
    omega)
  have hpage : page (w.va + off) = page w.va := by
    rw [page_eq, page_eq, VirtAddr.ofUsize_eq, VirtAddr.ofUsize_eq]
    omega
  rw [← Nat.mod_eq_of_lt (page_lt w.va)] at he
  have hvalid := isValid_new (htable.ppn_lt he) flags
  rw [hS, mmu, if_neg (by omega), hsatp, PageTable.translate_fromToken
    (htable.node_lt htable.tree.root_eq), hpage, htable'.translate_of_mapped he]
  simp only [bind_eq_bind, bind_some, hvalid, if_true,
    ppn_new (htable.ppn_lt he), PhysPageNum.toPhysAddr_eq (htable.ppn_lt he), hpa,
    pageSize, some.injEq]
  omega

/-- What the round trip asks for holds of the kernel space and the space of a thread with a
frame for its trap context. -/
theorem ready_of_spaces (hkernel : KernelInv L fixed framed kms s (ms.frames ++ rest))
    (huser : SpaceInv L ms s others) (hmem : area ∈ ms.areas)
    (hlookup : area.dataFrames.lookup (page (trapCxBottomFromTid tid)) = some ppn)
    (htid : tid + 2 ≤ 2 ^ 26) (size : Instr → Nat) (hpos : ∀ i, 0 < size i)
    (hsize : totalSize size (alltraps ++ restore) ≤ 4096)
    (htoken : user.toNat = ms.pageTable.token) (hktoken : kernel.toNat = kms.pageTable.token) :
    Ready ⟨mmu, size, hpos, s.bytes, codeWindow L, contextWindow htid ppn⟩ user kernel := by
  obtain ⟨nodes, htable⟩ := huser.table
  obtain ⟨nodes', hktable⟩ := hkernel.table
  have hva := trapCxBottomFromTid_eq htid
  have hcovers := (huser.complete area hmem).covers_of_lookup hlookup
  have hdata : ppn ∈ ms.dataFrames :=
    mem_flatMap.mpr ⟨area, hmem, MapArea.mem_frames_of_lookup hlookup⟩
  have hnodup := (nodup_append.mp huser.owns.nodup).1
  have hnot : ppn ∉ ms.pageTable.frames :=
    fun hin => (nodup_append.mp hnodup).2.2 ppn hin ppn hdata rfl
  have hknot : ppn ∉ kms.pageTable.frames := fun hin =>
    (nodup_append.mp hkernel.owns.nodup).2.2 ppn (mem_append_left _ hin) ppn
      (mem_append_left _ (mem_append_right _ hdata)) rfl
  have hpage : page trampoline = trampolineVpn := by decide
  have haligned : trampoline % 4096 = 0 := by decide
  have hhigh : 2 ^ 64 - 2 ^ 38 ≤ trampoline := by decide
  have hcode : mappingOf L ms.areas (page trampoline) =
      some (L.trampolinePpn, PTEFlags.R ||| PTEFlags.X) := by
    simp [mappingOf, Layout.trampolineEntry, hpage]
  have hkcode : mappingOver (fixedMapping L fixed) framed (page trampoline) =
      some (L.trampolinePpn, PTEFlags.R ||| PTEFlags.X) := by
    simp [mappingOver, fixedMapping, Layout.trampolineEntry, hpage]
  have hcontext : mappingOf L ms.areas (page (trapCxBottomFromTid tid)) =
      some (ppn, area.mapPerm) := by
    rw [mappingOf_of_covers huser.complete huser.apart hmem hcovers, MapArea.entry, hlookup]
    rfl
  have hlen : 8 * 37 ≤ 4096 := by decide
  refine ⟨?_, ?_, ?_, ?_, rfl, hsize⟩
  · exact maps_of_table rfl htable htoken rfl hlen hnot hcode rfl haligned (Nat.le_refl _) hhigh
  · apply maps_of_table rfl htable htoken rfl hlen hnot hcontext rfl _ hlen
    all_goals
      simp only [contextWindow, hva]
      omega
  · exact maps_of_table rfl hktable hktoken rfl hlen hknot hkcode rfl haligned (Nat.le_refl _) hhigh
  · simp only [contextWindow, hva]
    omega

end Spaces

end RCore.Trap
