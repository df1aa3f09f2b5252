import RCore.Lib.LittleEndian
import Mathlib.Data.Nat.Bitwise

/-!
# Disk blocks and their typed views

A block is `BLOCK_SZ` bytes.  The file system reads the same bytes as a data
block, as an array of `u32` block numbers (`IndirectBlock`), as an array of
`u64` bitmap words (`BitmapBlock`) or as a record at some offset.  Every write
through such a view is a `patch` of a byte range, so that one lemma about
`patch` settles what a write does to each of the other views.
-/

namespace RCore.EasyFs

open RCore.Lib.LittleEndian

variable {i off n j : Nat}

/-- `BLOCK_SZ`, the number of bytes in a block. -/
def blockSz : Nat := 512

/-- One block, `[u8; BLOCK_SZ]`. -/
structure Block where
  bytes : Vector UInt8 blockSz
  deriving DecidableEq

namespace Block

/-- Byte `i`; zero past the end. -/
def byte (b : Block) (i : Nat) : UInt8 := b.bytes[i]?.getD 0

/-- The block whose byte `i` is `f i`. -/
def ofBytes (f : Nat → UInt8) : Block := ⟨Vector.ofFn fun i => f i.val⟩

/-- The block of zero bytes. -/
def zero : Block := ofBytes fun _ => 0

/-- Replace the `n` bytes from `off` on by `f 0, …, f (n - 1)`. -/
def patch (b : Block) (off n : Nat) (f : Nat → UInt8) : Block :=
  ofBytes fun i => if off ≤ i ∧ i < off + n then f (i - off) else b.byte i

theorem byte_ofBytes (f : Nat → UInt8) (hi : i < 512) : (ofBytes f).byte i = f i := by
  have hi' : i < blockSz := hi
  simp [byte, ofBytes, hi']

@[ext] theorem ext {b c : Block} (h : ∀ i < 512, b.byte i = c.byte i) : b = c := by
  cases b with
  | mk bs =>
    cases c with
    | mk cs =>
      have hbytes : bs = cs := by
        apply Vector.ext
        intro i hi
        have hb := h i hi
        simpa [byte, hi] using hb
      rw [hbytes]

@[simp] theorem byte_zero (i : Nat) : zero.byte i = 0 := by
  by_cases hi : i < 512
  · exact byte_ofBytes _ hi
  · have hi' : ¬i < blockSz := hi
    simp [byte, hi']

theorem byte_patch (b : Block) (off n : Nat) (f : Nat → UInt8) (hi : i < 512) :
    (b.patch off n f).byte i =
      if off ≤ i ∧ i < off + n then f (i - off) else b.byte i :=
  byte_ofBytes _ hi

theorem byte_patch_inside (b : Block) (f : Nat → UInt8) (hi : i < n) (hoff : off + n ≤ 512) :
    (b.patch off n f).byte (off + i) = f i := by
  rw [byte_patch b off n f (by omega), if_pos (by omega), Nat.add_sub_cancel_left]

theorem byte_patch_outside (b : Block) (f : Nat → UInt8) (hi : i < 512)
    (hout : i < off ∨ off + n ≤ i) : (b.patch off n f).byte i = b.byte i := by
  rw [byte_patch b off n f hi, if_neg (by omega)]

theorem patch_self (b : Block) {f : Nat → UInt8} (h : ∀ i < n, f i = b.byte (off + i)) :
    b.patch off n f = b := by
  apply ext
  intro i hi
  rw [byte_patch b off n f hi]
  split
  · rename_i hin
    rw [h (i - off) (by omega), Nat.add_sub_cancel' hin.1]
  · rfl

theorem patch_patch (b : Block) (off n : Nat) (f g : Nat → UInt8) :
    (b.patch off n f).patch off n g = b.patch off n g := by
  apply ext
  intro i hi
  rw [byte_patch _ off n g hi, byte_patch b off n g hi, byte_patch b off n f hi]
  split <;> rfl

/-! ## `u32` words -/

/-- The `u32` stored at byte offset `off`. -/
def u32At (b : Block) (off : Nat) : UInt32 :=
  UInt32.ofNat (leValue (fun i => b.byte (off + i)) 4)

/-- Entry `i` of the block read as an `IndirectBlock`, `[u32; BLOCK_SZ / 4]`. -/
def word (b : Block) (i : Nat) : UInt32 := b.u32At (4 * i)

/-- Assign entry `i` of the block read as an `IndirectBlock`. -/
def setWord (b : Block) (i : Nat) (v : UInt32) : Block :=
  b.patch (4 * i) 4 (leByte v.toNat)

theorem u32At_congr {b c : Block} {off' : Nat} (h : ∀ i < 4, b.byte (off + i) = c.byte (off' + i)) :
    b.u32At off = c.u32At off' := by
  rw [u32At, u32At, leValue_congr h]

theorem u32At_eq {b : Block} {v : UInt32} (h : ∀ i < 4, b.byte (off + i) = leByte v.toNat i) :
    b.u32At off = v := by
  rw [u32At, leValue_congr h, leValue_leByte (by simpa using v.toNat_lt)]
  exact UInt32.ofNat_toNat

theorem leByte_u32At (b : Block) (off : Nat) (hi : i < 4) :
    leByte (b.u32At off).toNat i = b.byte (off + i) := by
  have hlt := leValue_lt (fun i => b.byte (off + i)) 4
  have hval : (b.u32At off).toNat = leValue (fun i => b.byte (off + i)) 4 := by
    rw [u32At, UInt32.toNat_ofNat']
    exact Nat.mod_eq_of_lt (by simpa using hlt)
  rw [hval]
  exact leByte_leValue _ hi

theorem u32At_patch_outside (b : Block) {off' : Nat} (f : Nat → UInt8) (hoff : off' + 4 ≤ 512)
    (hout : off' + 4 ≤ off ∨ off + n ≤ off') : (b.patch off n f).u32At off' = b.u32At off' := by
  apply u32At_congr
  intro i hi
  exact byte_patch_outside b f (by omega) (by omega)

theorem word_setWord (b : Block) (v : UInt32) (hi : i < 128) (hj : j < 128) :
    (b.setWord i v).word j = if j = i then v else b.word j := by
  split
  · rename_i hij
    subst hij
    apply u32At_eq
    intro k hk
    exact byte_patch_inside b _ hk (by omega)
  · exact u32At_patch_outside b _ (by omega) (by omega)

@[simp] theorem word_setWord_same (b : Block) {i : Nat} (v : UInt32) (hi : i < 128) :
    (b.setWord i v).word i = v := by
  rw [word_setWord b v hi hi, if_pos rfl]

theorem word_setWord_ne (b : Block) (v : UInt32) (hi : i < 128) (hj : j < 128) (hij : j ≠ i) :
    (b.setWord i v).word j = b.word j := by
  rw [word_setWord b v hi hj, if_neg hij]

@[simp] theorem word_zero (i : Nat) : zero.word i = 0 := by
  rw [word, u32At, leValue_eq_zero (by simp)]
  rfl

theorem ext_word {b c : Block} (h : ∀ e < 128, b.word e = c.word e) : b = c := by
  apply ext
  intro i hi
  have hpos : 4 * (i / 4) + i % 4 = i := Nat.div_add_mod i 4
  have hlt : i % 4 < 4 := Nat.mod_lt _ (by omega)
  calc
    b.byte i = leByte (b.word (i / 4)).toNat (i % 4) := by
      rw [word, leByte_u32At b _ hlt, hpos]
    _ = leByte (c.word (i / 4)).toNat (i % 4) := by rw [h (i / 4) (by omega)]
    _ = c.byte i := by rw [word, leByte_u32At c _ hlt, hpos]

/-! ## `u64` words -/

/-- Entry `i` of the block read as a `BitmapBlock`, `[u64; 64]`. -/
def bits64 (b : Block) (i : Nat) : BitVec 64 :=
  BitVec.ofNat 64 (leValue (fun k => b.byte (8 * i + k)) 8)

/-- Assign entry `i` of the block read as a `BitmapBlock`. -/
def setBits64 (b : Block) (i : Nat) (w : BitVec 64) : Block :=
  b.patch (8 * i) 8 (leByte w.toNat)

theorem bits64_setBits64 (b : Block) (w : BitVec 64) (hi : i < 64) (hj : j < 64) :
    (b.setBits64 i w).bits64 j = if j = i then w else b.bits64 j := by
  split
  · rename_i hij
    subst hij
    have hbytes : ∀ k < 8, (b.setBits64 j w).byte (8 * j + k) = leByte w.toNat k := by
      intro k hk
      exact byte_patch_inside b _ hk (by omega)
    rw [bits64, leValue_congr hbytes, leValue_leByte (by simpa using w.isLt)]
    exact BitVec.ofNat_toNat _ _
  · have hbytes : ∀ k < 8, (b.setBits64 i w).byte (8 * j + k) = b.byte (8 * j + k) := by
      intro k hk
      exact byte_patch_outside b _ (by omega) (by omega)
    rw [bits64, bits64, leValue_congr hbytes]

theorem ext_bits64 {b c : Block} (h : ∀ i < 64, b.bits64 i = c.bits64 i) : b = c := by
  have hbyte : ∀ (x : Block) (i k : Nat), k < 8 →
      leByte (x.bits64 i).toNat k = x.byte (8 * i + k) := by
    intro x i k hk
    have hlt := leValue_lt (fun k => x.byte (8 * i + k)) 8
    rw [bits64, BitVec.toNat_ofNat, Nat.mod_eq_of_lt (by simpa using hlt)]
    exact leByte_leValue _ hk
  apply ext
  intro i hi
  have hpos : 8 * (i / 8) + i % 8 = i := Nat.div_add_mod i 8
  have hlt : i % 8 < 8 := Nat.mod_lt _ (by omega)
  calc
    b.byte i = leByte (b.bits64 (i / 8)).toNat (i % 8) := by rw [hbyte b _ _ hlt, hpos]
    _ = leByte (c.bits64 (i / 8)).toNat (i % 8) := by rw [h (i / 8) (by omega)]
    _ = c.byte i := by rw [hbyte c _ _ hlt, hpos]

@[simp] theorem bits64_zero (i : Nat) : zero.bits64 i = 0#64 := by
  rw [bits64, leValue_eq_zero (by simp)]

end Block

end RCore.EasyFs
