import RCore.Lib.ArgVector

/-!
# Straight-line RISC-V code

Instructions that save, load and exchange registers, run through an address translation that
the code itself may switch: `run` has a result only if every fetch finds the next
instruction of the program.
-/

namespace RCore.Lib.Assembly

open RCore.Lib.LittleEndian RCore.Lib.ArgVector Function List

abbrev Word := BitVec 64
abbrev Reg := BitVec 5

inductive Csr where
  | sstatus | sepc | sscratch | satp
deriving DecidableEq

inductive Instr where
  | sd (rs : Reg) (imm : Nat) (base : Reg)
  | ld (rd : Reg) (imm : Nat) (base : Reg)
  | mv (rd rs : Reg)
  | csrr (rd : Reg) (csr : Csr)
  | csrrw (rd : Reg) (csr : Csr) (rs : Reg)
  | sfenceVma
  | jr (rs : Reg)
  | sret

/-- `csrw` drops what the register held. -/
abbrev Instr.csrw (csr : Csr) (rs : Reg) : Instr := .csrrw 0 csr rs

/-- Registers and memory. -/
structure Core where
  x : Reg → Word
  csr : Csr → Word
  mem : Bytes

structure Hart extends Core where
  pc : Word

def readWord (mem : Bytes) (a : Nat) : Word := BitVec.ofNat 64 (leValue (fun i => mem (a + i)) 8)

/-- `sret` sets `SIE` to `SPIE`, `SPIE` to one and `SPP` to zero. -/
def sretStatus (sstatus : Word) : Word :=
  sstatus &&& ~~~0x102 ||| (if sstatus.getLsbD 5 then 2 else 0) ||| 0x20

/-- Nothing is written to the register zero. -/
def Core.set (c : Core) (rd : Reg) (v : Word) : Core :=
  { c with x := if rd = 0 then c.x else update c.x rd v }

/-! ## Execution -/

section

variable (translate : Word → Bytes → Nat → Option Nat) (size : Instr → Nat)

/-- Where the doubleword of an access lies. -/
def Core.address (c : Core) (base : Reg) (imm : Nat) : Option Nat :=
  let va := ((c.x base).toNat + imm) % 2 ^ 64
  if va % 8 = 0 then translate (c.csr .satp) c.mem va else none

def exec : Instr → Core → Option Core
  | .sd rs imm base, c => do
      let pa ← c.address translate base imm
      some { c with mem := putWord c.mem pa (c.x rs).toNat }
  | .ld rd imm base, c => do
      let pa ← c.address translate base imm
      some (c.set rd (readWord c.mem pa))
  | .mv rd rs, c => some (c.set rd (c.x rs))
  | .csrr rd csr, c => some (c.set rd (c.csr csr))
  | .csrrw rd csr rs, c =>
      some { c.set rd (c.csr csr) with csr := update c.csr csr (c.x rs) }
  | .sfenceVma, c => some c
  | .jr _, c => some c
  | .sret, c =>
      some { c with csr := update c.csr .sstatus (sretStatus (c.csr .sstatus)) }

/-- Where a jump goes. -/
def target : Instr → Core → Option Word
  | .jr rs, c => some (c.x rs)
  | .sret, c => some (c.csr .sepc)
  | _, _ => none

/-- The program lies from the physical address `pa` on. -/
def run : List Instr → Nat → Hart → Option Hart
  | [], _, m => some m
  | i :: rest, pa, m => do
      let fetched ← translate (m.csr .satp) m.mem m.pc.toNat
      if fetched ≠ pa then none else
      let c ← exec translate i m.toCore
      run rest (pa + size i) ⟨c, (target i m.toCore).getD (m.pc + BitVec.ofNat 64 (size i))⟩

end

def totalSize (size : Instr → Nat) (program : List Instr) : Nat := (program.map size).sum

theorem totalSize_cons (size : Instr → Nat) (i : Instr) (rest : List Instr) :
    totalSize size (i :: rest) = size i + totalSize size rest := by
  simp [totalSize]

theorem totalSize_append (size : Instr → Nat) (program rest : List Instr) :
    totalSize size (program ++ rest) = totalSize size program + totalSize size rest := by
  simp [totalSize]

/-- Stores of registers into the doublewords from a base on. -/
def saves (base : Reg) (slots : List (Reg × Nat)) : List Instr :=
  slots.map fun slot => .sd slot.1 (8 * slot.2) base

def loads (base : Reg) (slots : List (Reg × Nat)) : List Instr :=
  slots.map fun slot => .ld slot.1 (8 * slot.2) base

/-! ## Doublewords -/

section Words

variable {mem mem' : Bytes} {k pa : Nat} {x : Reg → Word} {slot : Reg × Nat}
  {slots : List (Reg × Nat)}

theorem readWord_putWord (mem : Bytes) (a : Nat) (v : Word) :
    readWord (putWord mem a v.toNat) a = v := by
  unfold readWord
  rw [(holdsWord_putWord mem a v.toNat).value v.isLt, BitVec.ofNat_toNat, BitVec.setWidth_eq]

theorem readWord_putWord_of_ne {k' v : Nat} (h : k' ≠ k) :
    readWord (putWord mem (pa + 8 * k) v) (pa + 8 * k') = readWord mem (pa + 8 * k') := by
  unfold readWord
  apply congrArg
  apply leValue_congr
  intro i hi
  exact putWord_outside (by omega)

/-- The words of the slots have been stored, and no others. -/
structure Stored (x : Reg → Word) (pa : Nat) (slots : List (Reg × Nat)) (mem mem' : Bytes) :
    Prop where
  word : ∀ slot ∈ slots, readWord mem' (pa + 8 * slot.2) = x slot.1
  kept : ∀ k, k ∉ slots.map Prod.snd → readWord mem' (pa + 8 * k) = readWord mem (pa + 8 * k)

theorem Stored.cons (hfirst : slot.2 ∉ slots.map Prod.snd)
    (h : Stored x pa slots (putWord mem (pa + 8 * slot.2) (x slot.1).toNat) mem') :
    Stored x pa (slot :: slots) mem mem' where
  word := by
    rw [forall_mem_cons]
    exact ⟨(h.kept slot.2 hfirst).trans (readWord_putWord _ _ _), h.word⟩
  kept k hk := by
    rw [map_cons, mem_cons, not_or] at hk
    exact (h.kept k hk.2).trans (readWord_putWord_of_ne hk.1)

end Words

/-! ## Mapped code and data -/

/-- Virtual addresses one after the other, and where they lie. -/
structure Window where
  va : Nat
  pa : Nat
  len : Nat
  fits : va + len ≤ 2 ^ 64

/-- The memories agree outside of the window. -/
def Window.Apart (w : Window) (mem mem' : Bytes) : Prop :=
  ∀ x, x < w.pa ∨ w.pa + w.len ≤ x → mem' x = mem x

/-- Code at a window, which may write to the window `data` of the memory `mem`. -/
structure Setting where
  translate : Word → Bytes → Nat → Option Nat
  size : Instr → Nat
  size_pos : ∀ i, 0 < size i
  mem : Bytes
  code : Window
  data : Window

namespace Setting

/-- The space maps the window, whatever is written to `data`. -/
def Maps (S : Setting) (satp : Word) (w : Window) : Prop :=
  ∀ mem, S.data.Apart S.mem mem → ∀ off < w.len,
    S.translate satp mem (w.va + off) = some (w.pa + off)

/-- The code can be fetched. -/
def Ok (S : Setting) (c : Core) : Prop :=
  S.Maps (c.csr .satp) S.code ∧ S.data.Apart S.mem c.mem

/-- From anywhere in the code where they lie, the instructions run to their end. -/
def Leads (S : Setting) (program : List Instr) (c : Core) (post : Hart → Prop) : Prop :=
  ∀ off, off + totalSize S.size program ≤ S.code.len →
    ∃ m, run S.translate S.size program (S.code.pa + off)
      ⟨c, BitVec.ofNat 64 (S.code.va + off)⟩ = some m ∧ post m

variable {S : Setting} {c c' : Core} {i : Instr} {rest : List Instr} {post : Hart → Prop}
  {w : Window} {base rd : Reg} {slots : List (Reg × Nat)} {k : Nat}

theorem run_cons (hok : S.Ok c) {off : Nat} (hoff : off < S.code.len)
    (hexec : exec S.translate i c = some c') :
    run S.translate S.size (i :: rest) (S.code.pa + off) ⟨c, BitVec.ofNat 64 (S.code.va + off)⟩ =
      run S.translate S.size rest (S.code.pa + (off + S.size i))
        ⟨c', (target i c).getD (BitVec.ofNat 64 (S.code.va + (off + S.size i)))⟩ := by
  have hfits := S.code.fits
  have hpc : (BitVec.ofNat 64 (S.code.va + off)).toNat = S.code.va + off := by
    rw [BitVec.toNat_ofNat, Nat.mod_eq_of_lt (by omega)]
  rw [run, hpc, hok.1 c.mem hok.2 off hoff, ← Nat.add_assoc, ← Nat.add_assoc,
    BitVec.ofNat_add (_ + off)]
  simp [hexec]

theorem Leads.next (hok : S.Ok c) (hexec : exec S.translate i c = some c')
    (htarget : target i c = none) (h : S.Leads rest c' post) : S.Leads (i :: rest) c post := by
  intro off hoff
  have hsize := S.size_pos i
  rw [totalSize_cons] at hoff
  rw [run_cons hok (by omega) hexec, htarget]
  exact h _ (by omega)

theorem Leads.jump {pc : Word} (hok : S.Ok c) (hexec : exec S.translate i c = some c')
    (htarget : target i c = some pc) (h : post ⟨c', pc⟩) : S.Leads [i] c post := by
  intro off hoff
  have hsize := S.size_pos i
  rw [totalSize_cons] at hoff
  rw [run_cons hok (by omega) hexec, htarget]
  exact ⟨_, rfl, h⟩

/-- The registers after loads of the slots. -/
def loaded (mem : Bytes) (pa : Nat) (slots : List (Reg × Nat)) (x : Reg → Word) : Reg → Word :=
  slots.foldl (fun x slot => update x slot.1 (readWord mem (pa + 8 * slot.2))) x

section Access

variable (hok : S.Ok c) (hmaps : S.Maps (c.csr .satp) w) (hbase : (c.x base).toNat = w.va)
  (haligned : w.va % 8 = 0)
include hok hmaps hbase haligned

theorem address_eq (hk : 8 * k + 8 ≤ w.len) :
    c.address S.translate base (8 * k) = some (w.pa + 8 * k) := by
  have hfits := w.fits
  unfold Core.address
  rw [hbase, Nat.mod_eq_of_lt (by omega), if_pos (by omega)]
  exact hmaps c.mem hok.2 (8 * k) (by omega)

theorem Leads.ld (hrd : rd ≠ 0) (hk : 8 * k + 8 ≤ w.len)
    (h : S.Leads rest { c with x := update c.x rd (readWord c.mem (w.pa + 8 * k)) } post) :
    S.Leads (.ld rd (8 * k) base :: rest) c post := by
  refine Leads.next hok ?_ rfl h
  rw [exec, address_eq hok hmaps hbase haligned hk]
  change some (c.set rd _) = _
  rw [Core.set, if_neg hrd]

theorem Leads.loads (hslots : ∀ slot ∈ slots, 8 * slot.2 + 8 ≤ w.len)
    (hregs : ∀ slot ∈ slots, slot.1 ≠ 0 ∧ slot.1 ≠ base)
    (h : S.Leads rest { c with x := loaded c.mem w.pa slots c.x } post) :
    S.Leads (loads base slots ++ rest) c post := by
  induction slots generalizing c with
  | nil => exact h
  | cons slot slots ih =>
    obtain ⟨hslot, hslots⟩ := forall_mem_cons.mp hslots
    obtain ⟨⟨hzero, hne⟩, hregs⟩ := forall_mem_cons.mp hregs
    apply Leads.ld hok hmaps hbase haligned hzero hslot
    refine ih hok hmaps ?_ hslots hregs h
    calc (update c.x slot.1 _ base).toNat
        = (c.x base).toNat := congrArg _ (update_of_ne hne.symm _ _)
      _ = w.va := hbase

end Access

theorem Leads.saves (hok : S.Ok c) (hmaps : S.Maps (c.csr .satp) S.data)
    (hbase : (c.x base).toNat = S.data.va) (haligned : S.data.va % 8 = 0)
    (hslots : ∀ slot ∈ slots, 8 * slot.2 + 8 ≤ S.data.len) (hnodup : (slots.map Prod.snd).Nodup)
    (h : ∀ mem, Stored c.x S.data.pa slots c.mem mem → S.Ok { c with mem := mem } →
      S.Leads rest { c with mem := mem } post) :
    S.Leads (saves base slots ++ rest) c post := by
  induction slots generalizing c with
  | nil => exact h c.mem ⟨by simp, fun _ _ => rfl⟩ hok
  | cons slot slots ih =>
    obtain ⟨hslot, hslots⟩ := forall_mem_cons.mp hslots
    obtain ⟨hfirst, hnodup⟩ := nodup_cons.mp hnodup
    let c' := { c with mem := putWord c.mem (S.data.pa + 8 * slot.2) (c.x slot.1).toNat }
    have hapart : S.data.Apart S.mem c'.mem := by
      intro x hx
      calc c'.mem x = c.mem x := putWord_outside (by omega)
        _ = S.mem x := hok.2 x hx
    have hrest := @ih c' ⟨hok.1, hapart⟩ hmaps hbase hslots hnodup fun mem hstored =>
      h mem (hstored.cons hfirst)
    refine Leads.next hok ?_ rfl hrest
    rw [exec, address_eq hok hmaps hbase haligned hslot]
    rfl

end Setting

end RCore.Lib.Assembly
