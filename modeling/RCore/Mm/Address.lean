import RCore.Lib.LittleEndian
import Mathlib.Data.Nat.Bitwise

/-!
# Addresses and physical memory

Addresses and page numbers are the `usize` values they wrap, kept as numbers.  Physical memory is
a function from addresses to bytes; the kernel maps all of it one to one, so a
`PhysPageNum` gives access to its frame as an array of 512 page table entries or
of 4096 bytes.
-/

namespace RCore.Mm

open RCore.Lib.LittleEndian

variable {v pa : Nat} {frames : List Nat}

def pageSize : Nat := 0x1000
def pageSizeBits : Nat := 0xc
def paWidthSv39 : Nat := 56
def vaWidthSv39 : Nat := 39
def ppnWidthSv39 : Nat := paWidthSv39 - pageSizeBits
def vpnWidthSv39 : Nat := vaWidthSv39 - pageSizeBits

/-- `<<` on `usize` drops the high bits. -/
def usizeShl (v n : Nat) : Nat := (v <<< n) % 2 ^ 64

/-- `PhysPageNum::from(usize)`. -/
def PhysPageNum.ofUsize (v : Nat) : Nat := v &&& ((1 <<< ppnWidthSv39) - 1)

/-- `PhysAddr::from(PhysPageNum)`. -/
def PhysPageNum.toPhysAddr (ppn : Nat) : Nat := usizeShl ppn pageSizeBits

/-- The end of physical memory. -/
def memoryEnd : Nat := 0x80800000

def userStackSize : Nat := 4096 * 2

/-- `usize::MAX - PAGE_SIZE + 1`. -/
def trampoline : Nat := 2 ^ 64 - 1 - pageSize + 1

def trapContextBase : Nat := trampoline - pageSize

/-- `+` on `usize`. -/
def usizeAdd (v w : Nat) : Nat := (v + w) % 2 ^ 64

/-- `-` on `usize`. -/
def usizeSub (v w : Nat) : Nat := (v + 2 ^ 64 - w % 2 ^ 64) % 2 ^ 64

/-- `PhysAddr::from(usize)`. -/
def PhysAddr.ofUsize (v : Nat) : Nat := v &&& ((1 <<< paWidthSv39) - 1)

/-- `VirtAddr::from(usize)`. -/
def VirtAddr.ofUsize (v : Nat) : Nat := v &&& ((1 <<< vaWidthSv39) - 1)

/-- `PhysAddr` and `VirtAddr` round to pages in the same way. -/
def pageFloor (v : Nat) : Nat := v / pageSize

/-- For address 0 the subtraction wraps, and the addition wraps back. -/
def pageCeil (v : Nat) : Nat := usizeAdd (usizeAdd v (2 ^ 64 - 1)) pageSize / pageSize

def pageOffset (v : Nat) : Nat := v &&& (pageSize - 1)

def PhysAddr.floor (pa : Nat) : Nat := pageFloor pa
def PhysAddr.ceil (pa : Nat) : Nat := pageCeil pa
def VirtAddr.floor (va : Nat) : Nat := pageFloor va
def VirtAddr.ceil (va : Nat) : Nat := pageCeil va

/-- `PhysPageNum::from(PhysAddr)`; the address must be aligned. -/
def PhysAddr.toPhysPageNum (pa : Nat) : Option Nat :=
  if pageOffset pa = 0 then some (PhysAddr.floor pa) else none

/-- `VirtPageNum::from(VirtAddr)`; the address must be aligned. -/
def VirtAddr.toVirtPageNum (va : Nat) : Option Nat :=
  if pageOffset va = 0 then some (VirtAddr.floor va) else none

/-- `VirtAddr::from(VirtPageNum)`. -/
def VirtPageNum.toVirtAddr (vpn : Nat) : Nat := usizeShl vpn pageSizeBits

/-- `VirtPageNum::indexes`: nine bits for each level, the highest first. -/
def VirtPageNum.indexes (vpn : Nat) : List Nat :=
  [vpn >>> 9 >>> 9 &&& 511, vpn >>> 9 &&& 511, vpn &&& 511]

theorem usizeAdd_eq {w : Nat} (h : v + w < 2 ^ 64) : usizeAdd v w = v + w :=
  Nat.mod_eq_of_lt h

theorem usizeSub_eq {w : Nat} (hle : w ≤ v) (hlt : v < 2 ^ 64) : usizeSub v w = v - w := by
  rw [usizeSub]
  omega

theorem PhysPageNum.ofUsize_eq (v : Nat) : PhysPageNum.ofUsize v = v % 2 ^ 44 :=
  Nat.and_two_pow_sub_one_eq_mod v 44

theorem PhysPageNum.ofUsize_lt (v : Nat) : PhysPageNum.ofUsize v < 2 ^ 44 := by
  rw [ofUsize_eq]
  exact Nat.mod_lt _ (by omega)

theorem PhysPageNum.toPhysAddr_eq {ppn : Nat} (h : ppn < 2 ^ 44) :
    PhysPageNum.toPhysAddr ppn = 4096 * ppn := by
  rw [toPhysAddr, usizeShl, Nat.shiftLeft_eq, pageSizeBits]
  omega

theorem PhysAddr.ofUsize_eq (v : Nat) : PhysAddr.ofUsize v = v % 2 ^ 56 :=
  Nat.and_two_pow_sub_one_eq_mod v 56

theorem VirtAddr.ofUsize_eq (v : Nat) : VirtAddr.ofUsize v = v % 2 ^ 39 :=
  Nat.and_two_pow_sub_one_eq_mod v 39

theorem VirtAddr.ofUsize_lt (v : Nat) : VirtAddr.ofUsize v < 2 ^ 39 := by
  rw [ofUsize_eq]
  exact Nat.mod_lt _ (Nat.two_pow_pos 39)

theorem VirtAddr.ofUsize_of_lt (h : v < 2 ^ 39) : VirtAddr.ofUsize v = v := by
  rw [ofUsize_eq]
  exact Nat.mod_eq_of_lt h

theorem pageOffset_eq (v : Nat) : pageOffset v = v % 4096 :=
  Nat.and_two_pow_sub_one_eq_mod v 12

theorem pageFloor_eq (v : Nat) : pageFloor v = v / 4096 :=
  rfl

theorem VirtAddr.toVirtPageNum_mul (vpn : Nat) :
    VirtAddr.toVirtPageNum (4096 * vpn) = some vpn := by
  rw [VirtAddr.toVirtPageNum, VirtAddr.floor, pageFloor_eq, pageOffset_eq, Nat.mul_mod_right,
    Nat.mul_div_cancel_left _ (by decide)]
  rfl

theorem pageCeil_eq (h : v < 2 ^ 63) : pageCeil v = (v + 4095) / 4096 := by
  rw [pageCeil, usizeAdd, usizeAdd, pageSize]
  omega

theorem VirtPageNum.toVirtAddr_eq {vpn : Nat} (h : vpn < 2 ^ 52) :
    VirtPageNum.toVirtAddr vpn = 4096 * vpn := by
  rw [toVirtAddr, usizeShl, Nat.shiftLeft_eq, pageSizeBits]
  omega

/-! ## Physical memory -/

abbrev Memory := Nat → UInt8

namespace Memory

/-- An aligned `usize` in memory. -/
def readUsize (m : Memory) (pa : Nat) : Nat := leValue (fun i => m (pa + i)) 8

@[irreducible] def writeUsize (m : Memory) (pa : Nat) (v : Nat) : Memory := fun x =>
  if pa ≤ x ∧ x < pa + 8 then leByte v (x - pa) else m x

/-- All bytes of a frame are set to zero. -/
@[irreducible] def clearFrame (m : Memory) (ppn : Nat) : Memory := fun x =>
  if PhysPageNum.toPhysAddr ppn ≤ x ∧ x < PhysPageNum.toPhysAddr ppn + pageSize then 0 else m x

/-- Two memories agree outside the frames. -/
def SameOutside (frames : List Nat) (m m' : Memory) : Prop :=
  ∀ x, x / 4096 ∉ frames → m' x = m x

theorem SameOutside.refl (frames : List Nat) (m : Memory) : SameOutside frames m m :=
  fun _ _ => rfl

theorem SameOutside.trans {frames' : List Nat} {m m' m'' : Memory} (h : SameOutside frames m m')
    (h' : SameOutside frames' m' m'') (hsub : frames ⊆ frames') : SameOutside frames' m m'' :=
  fun x hx => (h' x hx).trans (h x fun hmem => hx (hsub hmem))

theorem SameOutside.mono {frames' : List Nat} {m m' : Memory} (h : SameOutside frames m m')
    (hsub : frames ⊆ frames') : SameOutside frames' m m' :=
  fun x hx => h x fun hmem => hx (hsub hmem)

theorem sameOutside_writeUsize (m : Memory) {p : Nat} (v : Nat) (hp : p ∈ frames)
    (hlow : 4096 * p ≤ pa) (hhigh : pa + 8 ≤ 4096 * p + 4096) :
    SameOutside frames m (m.writeUsize pa v) := by
  intro x hx
  rw [writeUsize, if_neg]
  intro hin
  exact hx ((by omega : x / 4096 = p) ▸ hp)

theorem sameOutside_clearFrame (m : Memory) {p : Nat} (hlt : p < 2 ^ 44) (hp : p ∈ frames) :
    SameOutside frames m (m.clearFrame p) := by
  intro x hx
  rw [clearFrame, PhysPageNum.toPhysAddr_eq hlt, pageSize, if_neg]
  intro hin
  exact hx ((by omega : x / 4096 = p) ▸ hp)

theorem readUsize_congr {m m' : Memory} (h : ∀ i < 8, m (pa + i) = m' (pa + i)) :
    m.readUsize pa = m'.readUsize pa :=
  leValue_congr h

theorem readUsize_writeUsize_self (m : Memory) (pa : Nat) (hv : v < 2 ^ 64) :
    (m.writeUsize pa v).readUsize pa = v := by
  have hbytes : ∀ i < 8, m.writeUsize pa v (pa + i) = leByte v i := by
    intro i hi
    rw [writeUsize, if_pos (by omega), Nat.add_sub_cancel_left]
  rw [readUsize, leValue_congr hbytes]
  exact leValue_leByte hv

theorem readUsize_writeUsize_of_disjoint (m : Memory) {pa' : Nat} (v : Nat)
    (h : pa + 8 ≤ pa' ∨ pa' + 8 ≤ pa) : (m.writeUsize pa v).readUsize pa' = m.readUsize pa' := by
  apply readUsize_congr
  intro i hi
  rw [writeUsize, if_neg (by omega)]

end Memory

end RCore.Mm
