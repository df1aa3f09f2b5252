import RCore.EasyFs.Block
import RCore.Lib.LockedStore

/-!
# Bitmaps

A bitmap occupies `blocks` consecutive blocks of 64 words of 64 bits.  `alloc`
scans the blocks for the first word that is not full and sets its lowest clear
bit; `dealloc` subtracts a bit it has asserted to be set.  In terms of the set of
bits, `alloc` takes the least clear bit (`run_alloc`) and `dealloc` clears
exactly the given one (`run_dealloc`).
-/

namespace RCore.EasyFs

open RCore.Lib.LockedStore Function List Block
open Prog (withModify withRead check unwrap)
open BitVec (allOnes eq_of_getLsbD_eq getLsbD_allOnes getLsbD_and getLsbD_or)

variable {i k : Nat}

/-- Code of the file system: a program over lockable blocks. -/
abbrev FsProg := Prog Block

/-- `BLOCK_BITS`, the number of bits in a block. -/
def blockBits : Nat := blockSz * 8

structure Bitmap where
  startBlockId : Nat
  blocks : Nat
  deriving DecidableEq

/-- Block, word in the block, and bit in the word, of a bit. -/
def decomposition (bit : Nat) : Nat × Nat × Nat :=
  (bit / blockBits, bit % blockBits / 64, bit % blockBits % 64)

/-- `u64::trailing_ones`. -/
def trailingOnes (w : BitVec 64) : Nat :=
  ((List.range 64).find? fun i => !w.getLsbD i).getD 64

namespace Bitmap

/-- The closure of `Bitmap::alloc`: take the lowest clear bit of one block. -/
def allocIn (blockId : Nat) (bitmapBlock : Block) : Option Nat × Block :=
  match (List.range 64).find? fun i => bitmapBlock.bits64 i != BitVec.allOnes 64 with
  | some bits64Pos =>
      let bits64 := bitmapBlock.bits64 bits64Pos
      let innerPos := trailingOnes bits64
      (some (blockId * blockBits + bits64Pos * 64 + innerPos),
        bitmapBlock.setBits64 bits64Pos (bits64 ||| 1#64 <<< innerPos))
  | none => (none, bitmapBlock)

/-- The loop of `Bitmap::alloc` over the given block numbers. -/
def allocLoop (self : Bitmap) : List Nat → FsProg (Option Nat)
  | [] => pure none
  | blockId :: rest => do
      let pos ← withModify (blockId + self.startBlockId) fun b => pure (allocIn blockId b)
      if pos.isSome then pure pos else self.allocLoop rest

def alloc (self : Bitmap) : FsProg (Option Nat) := self.allocLoop (List.range self.blocks)

def dealloc (self : Bitmap) (bit : Nat) : FsProg Unit :=
  let (blockPos, bits64Pos, innerPos) := decomposition bit
  withModify (blockPos + self.startBlockId) fun bitmapBlock => do
    let bits64 := bitmapBlock.bits64 bits64Pos
    check (0#64 < bits64 &&& 1#64 <<< innerPos)
    pure ((), bitmapBlock.setBits64 bits64Pos (bits64 - 1#64 <<< innerPos))

def maximum (self : Bitmap) : Nat := self.blocks * blockBits

end Bitmap

/-! ## Bits of one block -/

namespace Block

/-- Bit `j` of a bitmap block. -/
def bit (b : Block) (j : Nat) : Bool := (b.bits64 (j / 64)).getLsbD (j % 64)

theorem ext_bit {b c : Block} (h : ∀ j < 4096, b.bit j = c.bit j) : b = c := by
  apply ext_bits64
  intro i hi
  apply eq_of_getLsbD_eq
  intro k hk
  have hdiv : (64 * i + k) / 64 = i := by omega
  have hmod : (64 * i + k) % 64 = k := by omega
  have hbit := h (64 * i + k) (by omega)
  rw [bit, bit, hdiv, hmod] at hbit
  exact hbit

/-- Set bit `j` of a bitmap block. -/
def setBit (b : Block) (j : Nat) : Block :=
  b.setBits64 (j / 64) (b.bits64 (j / 64) ||| 1#64 <<< (j % 64))

/-- Take bit `j` off a bitmap block. -/
def clearBit (b : Block) (j : Nat) : Block :=
  b.setBits64 (j / 64) (b.bits64 (j / 64) - 1#64 <<< (j % 64))

theorem getLsbD_one_shiftLeft (hk : k < 64) : (1#64 <<< i).getLsbD k = decide (k = i) := by
  simp only [BitVec.getLsbD_shiftLeft, BitVec.getLsbD_one]
  by_cases h : k = i
  · subst h; simp [hk]
  · by_cases hlt : k < i
    · simp [h, hlt]
    · have hsub : k - i ≠ 0 := by omega
      simp [h, hsub]

theorem getLsbD_sub_one_shiftLeft (w : BitVec 64) (hi : i < 64) (hk : k < 64)
    (hset : w.getLsbD i = true) :
    (w - 1#64 <<< i).getLsbD k = (!decide (k = i) && w.getLsbD k) := by
  -- `w` is the disjoint union of the bit and the rest, so that the rest is the difference
  let rest := w &&& ~~~(1#64 <<< i)
  have hbit : ∀ j < 64, rest.getLsbD j = (!decide (j = i) && w.getLsbD j) := by
    intro j hj
    simp only [rest, getLsbD_and, BitVec.getLsbD_not, getLsbD_one_shiftLeft hj, hj,
      decide_true, Bool.true_and]
    exact Bool.and_comm _ _
  have hdisj : rest &&& 1#64 <<< i = 0#64 := by
    apply eq_of_getLsbD_eq
    intro j hj
    rw [getLsbD_and, hbit j hj, getLsbD_one_shiftLeft hj]
    by_cases h : j = i <;> simp [h]
  have hunion : rest ||| 1#64 <<< i = w := by
    apply eq_of_getLsbD_eq
    intro j hj
    rw [getLsbD_or, hbit j hj, getLsbD_one_shiftLeft hj]
    by_cases h : j = i
    · subst h; simp [hset]
    · simp [h]
  have hsum : rest + 1#64 <<< i = w := by
    rw [BitVec.add_eq_or_of_and_eq_zero _ _ hdisj, hunion]
  have hdiff : w - 1#64 <<< i = rest := by
    rw [← hsum, BitVec.add_sub_cancel]
  rw [hdiff, hbit k hk]

theorem bit_setBit (b : Block) {j : Nat} (hj : j < 4096) (hk : k < 4096) :
    (b.setBit j).bit k = (decide (k = j) || b.bit k) := by
  rw [bit, setBit, bits64_setBits64 b _ (by omega) (by omega)]
  by_cases hword : k / 64 = j / 64
  · rw [if_pos hword, getLsbD_or, getLsbD_one_shiftLeft (Nat.mod_lt _ (by omega)), bit, hword]
    have heq : (k % 64 = j % 64) ↔ k = j := by omega
    simp only [heq]
    exact Bool.or_comm _ _
  · rw [if_neg hword, bit]
    have hne : k ≠ j := fun h => hword (by rw [h])
    simp [hne]

theorem bit_clearBit (b : Block) {j : Nat} (hj : j < 4096) (hk : k < 4096) (hset : b.bit j = true) :
    (b.clearBit j).bit k = (!decide (k = j) && b.bit k) := by
  rw [bit, clearBit, bits64_setBits64 b _ (by omega) (by omega)]
  by_cases hword : k / 64 = j / 64
  · rw [if_pos hword, getLsbD_sub_one_shiftLeft _ (Nat.mod_lt _ (by omega))
      (Nat.mod_lt _ (by omega)) hset, bit, hword]
    have heq : (k % 64 = j % 64) ↔ k = j := by omega
    simp [heq]
  · rw [if_neg hword, bit]
    have hne : k ≠ j := fun h => hword (by rw [h])
    simp [hne]

@[simp] theorem bit_zero (j : Nat) : zero.bit j = false := by
  simp [bit]

end Block

theorem trailingOnes_spec {w : BitVec 64} (hw : w ≠ allOnes 64) :
    trailingOnes w < 64 ∧ w.getLsbD (trailingOnes w) = false ∧
      ∀ i < trailingOnes w, w.getLsbD i = true := by
  cases hfind : (List.range 64).find? fun i => !w.getLsbD i with
  | none =>
    exfalso
    apply hw
    apply eq_of_getLsbD_eq
    intro i hi
    have hset := find?_eq_none.mp hfind i (by simpa using hi)
    rw [getLsbD_allOnes]
    simpa only [Bool.not_eq_true', Bool.not_eq_false, hi, decide_true] using hset
  | some i =>
    have htrail : trailingOnes w = i := by simp [trailingOnes, hfind]
    have hclear := find?_some (p := fun i => !w.getLsbD i) hfind
    have hmem := mem_of_find?_eq_some hfind
    rw [htrail]
    refine ⟨by simpa using hmem, by simpa using hclear, fun j hj => ?_⟩
    have hbefore := find?_range_eq_some.mp hfind
    simpa using hbefore.2.2 j hj

namespace Bitmap

/-- One block: either every bit is set and nothing happens, or the lowest clear bit
is set and its number returned. -/
theorem allocIn_spec (blockId : Nat) (b : Block) :
    (allocIn blockId b = (none, b) ∧ ∀ j < 4096, b.bit j = true) ∨
    ∃ j < 4096, allocIn blockId b = (some (blockId * 4096 + j), b.setBit j) ∧
      b.bit j = false ∧ ∀ k < j, b.bit k = true := by
  unfold allocIn
  cases hfind : (List.range 64).find? fun i => b.bits64 i != allOnes 64 with
  | none =>
    left
    refine ⟨rfl, fun j hj => ?_⟩
    have hfull := find?_eq_none.mp hfind (j / 64) (by simp; omega)
    have hfull' : b.bits64 (j / 64) = allOnes 64 := by simpa using hfull
    simp only [bit, hfull', getLsbD_allOnes, decide_eq_true_eq]
    exact Nat.mod_lt _ (by omega)
  | some p =>
    right
    obtain ⟨hne, hp, hbefore⟩ := find?_range_eq_some.mp hfind
    have hne' : b.bits64 p ≠ allOnes 64 := by simpa using hne
    have hp' : p < 64 := by simpa using hp
    obtain ⟨hlt, hclear, hones⟩ := trailingOnes_spec hne'
    have hdiv : (p * 64 + trailingOnes (b.bits64 p)) / 64 = p := by omega
    have hmod : (p * 64 + trailingOnes (b.bits64 p)) % 64 = trailingOnes (b.bits64 p) := by
      omega
    refine ⟨p * 64 + trailingOnes (b.bits64 p), by omega, ?_, ?_, fun k hk => ?_⟩
    · simp only [setBit, hdiv, hmod, blockBits, blockSz, Nat.add_assoc]
    · rw [bit, hdiv, hmod]
      exact hclear
    · by_cases hword : k / 64 = p
      · rw [bit, hword]
        exact hones _ (by omega)
      · have hfull := hbefore (k / 64) (by omega)
        have hfull' : b.bits64 (k / 64) = allOnes 64 := by simpa using hfull
        simp only [bit, hfull', getLsbD_allOnes, decide_eq_true_eq]
        exact Nat.mod_lt _ (by omega)

/-! ## Bits of the whole bitmap -/

/-- Bit `i` of the bitmap on the store `blk`. -/
def bitAt (self : Bitmap) (blk : Nat → Block) (i : Nat) : Bool :=
  (blk (i / 4096 + self.startBlockId)).bit (i % 4096)

/-- The store with bit `i` of the bitmap set. -/
def setBit (self : Bitmap) (blk : Nat → Block) (i : Nat) : Nat → Block :=
  Function.update blk (i / 4096 + self.startBlockId)
    ((blk (i / 4096 + self.startBlockId)).setBit (i % 4096))

/-- The store with bit `i` of the bitmap taken off. -/
def clearBit (self : Bitmap) (blk : Nat → Block) (i : Nat) : Nat → Block :=
  Function.update blk (i / 4096 + self.startBlockId)
    ((blk (i / 4096 + self.startBlockId)).clearBit (i % 4096))

section

variable (self : Bitmap) (blk : Nat → Block)
include self blk

theorem bitAt_setBit (i j : Nat) :
    self.bitAt (self.setBit blk i) j = (decide (j = i) || self.bitAt blk j) := by
  rw [bitAt, setBit, bitAt]
  by_cases hblock : j / 4096 = i / 4096
  · rw [hblock, update_self, bit_setBit _ (Nat.mod_lt _ (by omega)) (Nat.mod_lt _ (by omega))]
    have heq : (j % 4096 = i % 4096) ↔ j = i := by omega
    simp [heq]
  · have hne : j ≠ i := fun h => hblock (by rw [h])
    rw [update_of_ne (by omega)]
    simp [hne]

theorem bitAt_clearBit (j : Nat) (hset : self.bitAt blk i = true) :
    self.bitAt (self.clearBit blk i) j = (!decide (j = i) && self.bitAt blk j) := by
  rw [bitAt, clearBit, bitAt]
  by_cases hblock : j / 4096 = i / 4096
  · rw [hblock, update_self, bit_clearBit _ (Nat.mod_lt _ (by omega)) (Nat.mod_lt _ (by omega)) hset]
    have heq : (j % 4096 = i % 4096) ↔ j = i := by omega
    simp [heq]
  · have hne : j ≠ i := fun h => hblock (by rw [h])
    rw [update_of_ne (by omega)]
    simp [hne]

theorem setBit_of_ne {id : Nat} (h : id ≠ i / 4096 + self.startBlockId) :
    self.setBit blk i id = blk id :=
  update_of_ne h _ _

theorem clearBit_of_ne {id : Nat} (h : id ≠ i / 4096 + self.startBlockId) :
    self.clearBit blk i id = blk id :=
  update_of_ne h _ _

end

theorem bitAt_congr (self : Bitmap) {blk blk' : Nat → Block}
    (h : blk' (i / 4096 + self.startBlockId) = blk (i / 4096 + self.startBlockId)) :
    self.bitAt blk' i = self.bitAt blk i := by
  rw [bitAt, bitAt, h]

section Run

variable {cap : Nat} {blk : Nat → Block} {held : List Nat}

theorem run_allocBlock (self : Bitmap) (hcap : held.length < cap)
    (hid : k + self.startBlockId ∉ held) {a : Option Nat} {b : Block}
    (h : allocIn k (blk (k + self.startBlockId)) = (a, b)) :
    (withModify (k + self.startBlockId) fun b => (pure (allocIn k b) : FsProg _)).run cap false
      ⟨blk, held⟩ = some (a, ⟨update blk (k + self.startBlockId) b, held⟩) := by
  apply Prog.run_withModify hid hcap
  · rw [h]
    rfl
  · simp

/-- The scan from block `k` on: if the least clear bit `i` of the bitmap lies in the
`n` blocks from `k` on, it is set and returned. -/
theorem run_allocLoop (self : Bitmap) (hcap : held.length < cap)
    (hclear : self.bitAt blk i = false) (hbefore : ∀ j < i, self.bitAt blk j = true) (n k : Nat)
    (hk : k ≤ i / 4096) (hn : i / 4096 < k + n)
    (hheld : ∀ m, k ≤ m → m < k + n → m + self.startBlockId ∉ held) :
    (self.allocLoop (range' k n)).run cap false ⟨blk, held⟩ =
      some (some i, ⟨self.setBit blk i, held⟩) := by
  induction n generalizing k with
  | zero => omega
  | succ n ih =>
    have hid : k + self.startBlockId ∉ held := hheld k (by omega) (by omega)
    have hpos : ∀ j < 4096, self.bitAt blk (k * 4096 + j) =
        (blk (k + self.startBlockId)).bit j := by
      intro j hj
      rw [bitAt, show (k * 4096 + j) / 4096 = k by omega,
        show (k * 4096 + j) % 4096 = j by omega]
    rw [range'_succ, allocLoop]
    rcases allocIn_spec k (blk (k + self.startBlockId)) with
      ⟨hnone, hfull⟩ | ⟨j, hj, hsome, hjclear, hjset⟩
    · -- block `k` is full, so that the least clear bit lies further on
      have hne : i / 4096 ≠ k := by
        intro h
        have hlt : i % 4096 < 4096 := Nat.mod_lt _ (by omega)
        have hset := hpos (i % 4096) hlt
        rw [hfull _ hlt, show k * 4096 + i % 4096 = i by omega, hclear] at hset
        exact Bool.false_ne_true hset
      rw [Prog.run_bind_some (self.run_allocBlock hcap hid hnone), update_eq_self]
      exact ih (k + 1) (by omega) (by omega) fun m hm hm' => hheld m (by omega) (by omega)
    · have hi : i = k * 4096 + j := by
        rcases Nat.lt_trichotomy i (k * 4096 + j) with hlt | heq | hgt
        · exfalso
          have hset := hpos (i - k * 4096) (by omega)
          rw [hjset _ (by omega), show k * 4096 + (i - k * 4096) = i by omega, hclear] at hset
          exact Bool.false_ne_true hset
        · exact heq
        · exfalso
          have hset := hbefore _ hgt
          rw [hpos j hj, hjclear] at hset
          exact Bool.false_ne_true hset
      rw [Prog.run_bind_some (self.run_allocBlock hcap hid hsome)]
      simp only [Option.isSome_some, if_true, Prog.run_pure]
      rw [setBit, hi, show (k * 4096 + j) / 4096 = k by omega,
        show (k * 4096 + j) % 4096 = j by omega]

/-- `alloc` sets and returns the least clear bit, if it is one of the bitmap's. -/
theorem run_alloc (self : Bitmap) (hi : i < self.blocks * 4096) (hcap : held.length < cap)
    (hclear : self.bitAt blk i = false) (hbefore : ∀ j < i, self.bitAt blk j = true)
    (hheld : ∀ m < self.blocks, m + self.startBlockId ∉ held) :
    self.alloc.run cap false ⟨blk, held⟩ = some (some i, ⟨self.setBit blk i, held⟩) := by
  rw [alloc, range_eq_range']
  exact self.run_allocLoop hcap hclear hbefore _ 0 (by omega) (by omega)
    fun m _ hm => hheld m (by omega)

section

variable (self : Bitmap) (hcap : held.length < cap)
include self hcap

theorem run_allocLoop_full (n k : Nat) (hfull : ∀ j < (k + n) * 4096, self.bitAt blk j = true)
    (hheld : ∀ m, k ≤ m → m < k + n → m + self.startBlockId ∉ held) :
    (self.allocLoop (range' k n)).run cap false ⟨blk, held⟩ = some (none, ⟨blk, held⟩) := by
  induction n generalizing k with
  | zero => rfl
  | succ n ih =>
    have hnone : allocIn k (blk (k + self.startBlockId)) =
        (none, blk (k + self.startBlockId)) := by
      rcases allocIn_spec k (blk (k + self.startBlockId)) with
        ⟨hnone, -⟩ | ⟨j, hj, -, hclear, -⟩
      · exact hnone
      · have hset := hfull (k * 4096 + j) (by omega)
        rw [bitAt, show (k * 4096 + j) / 4096 = k by omega,
          show (k * 4096 + j) % 4096 = j by omega, hclear] at hset
        exact absurd hset Bool.false_ne_true
    have hid : k + self.startBlockId ∉ held := hheld k (by omega) (by omega)
    rw [range'_succ, allocLoop, Prog.run_bind_some (self.run_allocBlock hcap hid hnone),
      update_eq_self]
    rw [show k + (n + 1) = k + 1 + n by omega] at hfull
    exact ih (k + 1) hfull fun m hm hm' => hheld m (by omega) (by omega)

theorem run_alloc_full (hfull : ∀ j < self.blocks * 4096, self.bitAt blk j = true)
    (hheld : ∀ m < self.blocks, m + self.startBlockId ∉ held) :
    self.alloc.run cap false ⟨blk, held⟩ = some (none, ⟨blk, held⟩) := by
  rw [← Nat.zero_add self.blocks] at hfull
  rw [alloc, range_eq_range']
  exact self.run_allocLoop_full hcap _ 0 hfull fun m _ hm => hheld m (by omega)

/-- `dealloc` of a bit that is set clears it. -/
theorem run_dealloc (hset : self.bitAt blk i = true) (hheld : i / 4096 + self.startBlockId ∉ held) :
    (self.dealloc i).run cap false ⟨blk, held⟩ = some ((), ⟨self.clearBit blk i, held⟩) := by
  have hassert : 0#64 < (blk (i / 4096 + self.startBlockId)).bits64 (i % 4096 / 64) &&&
      1#64 <<< (i % 4096 % 64) := by
    rw [BitVec.pos_iff_ne_zero]
    intro hzero
    have hbit := congrArg (fun w : BitVec 64 => w.getLsbD (i % 4096 % 64)) hzero
    simp only [getLsbD_and, getLsbD_one_shiftLeft (Nat.mod_lt _ (by omega)),
      decide_true, Bool.and_true] at hbit
    have hset' : ((blk (i / 4096 + self.startBlockId)).bits64 (i % 4096 / 64)).getLsbD
        (i % 4096 % 64) = true := hset
    rw [hset'] at hbit
    simp at hbit
  simp only [dealloc, decomposition, blockBits, blockSz]
  apply Prog.run_withModify hheld hcap
  · simp only [Prog.run_bind, hassert, decide_true, Prog.run_check_true, Option.bind_some,
      Prog.run_pure]
    rfl
  · simp

/-- `dealloc` of a bit that is not set stops at its assertion. -/
theorem panics_dealloc (hclear : self.bitAt blk i = false)
    (hheld : i / 4096 + self.startBlockId ∉ held) : (self.dealloc i).Panics cap ⟨blk, held⟩ := by
  have hzero : (blk (i / 4096 + self.startBlockId)).bits64 (i % 4096 / 64) &&&
      1#64 <<< (i % 4096 % 64) = 0#64 := by
    apply eq_of_getLsbD_eq
    intro k hk
    rw [getLsbD_and, getLsbD_one_shiftLeft hk, BitVec.getLsbD_zero]
    by_cases he : k = i % 4096 % 64
    · have hbit : ((blk (i / 4096 + self.startBlockId)).bits64 (i % 4096 / 64)).getLsbD
          (i % 4096 % 64) = false := hclear
      rw [he, hbit]
      rfl
    · rw [decide_eq_false he, Bool.and_false]
  have hassert : decide (0#64 < (blk (i / 4096 + self.startBlockId)).bits64 (i % 4096 / 64) &&&
      1#64 <<< (i % 4096 % 64)) = false := by
    rw [hzero]
    rfl
  have hbits : blockBits = 4096 := rfl
  simp only [dealloc, decomposition, hbits]
  refine Prog.panics_withModify hheld hcap ?_
  simp only [hassert]
  exact Prog.panics_bind_left Prog.panics_check_false _

end

end Run

end Bitmap

end RCore.EasyFs
