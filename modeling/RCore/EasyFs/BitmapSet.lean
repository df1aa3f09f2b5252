import RCore.EasyFs.FsMachine
import RCore.Lib.Sequences
import Mathlib.Data.Finset.Basic
import Mathlib.Data.Finset.Filter
import Mathlib.Data.Finset.Range
import Mathlib.Order.Bounds.Basic

/-!
# A bitmap is a finite set

The indices whose bits are set form a finite set of numbers below `maximum()`.  On this set
`alloc` takes in the least number that is missing and `dealloc` takes out the given one;
`IndexSet` is the component with just these calls.  Whatever the blocks hold and whatever
calls are made, the bitmap on the block cache answers as `IndexSet` does.
-/

namespace RCore.EasyFs

open RCore.Lib.LockedStore RCore.Lib.Sequences List Option

/-! ## Sets of numbers below a bound -/

inductive BitmapOp where
  | alloc
  | dealloc (bit : Nat)

inductive BitmapResult where
  | bit (r : Option Nat)
  | unit
  deriving DecidableEq

namespace IndexSet

/-- The least number below the bound that is missing. -/
def leastFree (bound : Nat) (s : Finset Nat) : Option Nat :=
  (List.range bound).find? fun i => decide (i ∉ s)

def step (bound : Nat) (s : Finset Nat) : BitmapOp → Option (BitmapResult × Finset Nat)
  | .alloc =>
      match leastFree bound s with
      | some i => some (.bit (some i), insert i s)
      | none => some (.bit none, s)
  | .dealloc bit => if bit ∈ s then some (.unit, s.erase bit) else none

variable {bound i : Nat} {s : Finset Nat}

theorem leastFree_eq_some (h : IsLeast {j | j < bound ∧ j ∉ s} i) :
    leastFree bound s = some i := by
  obtain ⟨⟨hlt, hfree⟩, hleast⟩ := h
  rw [leastFree, find?_range_eq_some]
  refine ⟨decide_eq_true hfree, mem_range.mpr hlt, ?_⟩
  intro j hj
  rw [Bool.not_eq_true', decide_eq_false_iff_not, not_not]
  by_contra hjs
  exact absurd (hleast ⟨Nat.lt_trans hj hlt, hjs⟩) (Nat.not_le.mpr hj)

theorem leastFree_eq_none (h : s = Finset.range bound) : leastFree bound s = none := by
  rw [leastFree, find?_eq_none]
  intro j hj
  rw [mem_range] at hj
  simpa [h] using hj

end IndexSet

/-! ## The set of a bitmap -/

namespace Bitmap

variable (self : Bitmap) {blk : Nat → Block} {i : Nat}

/-- The indices whose bits are set. -/
def indexSet (blk : Nat → Block) : Finset Nat :=
  (Finset.range self.maximum).filter fun i => self.bitAt blk i = true

/-- One of the blocks of the bitmap. -/
def HasBlock (id : Nat) : Prop :=
  self.startBlockId ≤ id ∧ id < self.startBlockId + self.blocks

theorem maximum_eq : self.maximum = self.blocks * 4096 := rfl

theorem mem_indexSet : i ∈ self.indexSet blk ↔ i < self.maximum ∧ self.bitAt blk i = true := by
  rw [indexSet, Finset.mem_filter, Finset.mem_range]

theorem not_mem_indexSet (hi : i < self.maximum) :
    i ∉ self.indexSet blk ↔ self.bitAt blk i = false := by
  rw [mem_indexSet, not_and, Bool.not_eq_true]
  exact ⟨fun h => h hi, fun h _ => h⟩

theorem indexSet_setBit (hi : i < self.maximum) :
    self.indexSet (self.setBit blk i) = insert i (self.indexSet blk) := by
  ext j
  rw [Finset.mem_insert, mem_indexSet, mem_indexSet, bitAt_setBit, Bool.or_eq_true,
    decide_eq_true_eq]
  constructor
  · rintro ⟨hj, rfl | hset⟩
    · exact Or.inl rfl
    · exact Or.inr ⟨hj, hset⟩
  · rintro (rfl | ⟨hj, hset⟩)
    · exact ⟨hi, Or.inl rfl⟩
    · exact ⟨hj, Or.inr hset⟩

theorem indexSet_clearBit (hset : self.bitAt blk i = true) :
    self.indexSet (self.clearBit blk i) = (self.indexSet blk).erase i := by
  ext j
  rw [Finset.mem_erase, mem_indexSet, mem_indexSet, bitAt_clearBit _ _ _ hset, Bool.and_eq_true,
    Bool.not_eq_true', decide_eq_false_iff_not]
  constructor
  · rintro ⟨hj, hne, hbit⟩
    exact ⟨hne, hj, hbit⟩
  · rintro ⟨hne, hj, hbit⟩
    exact ⟨hj, hne, hbit⟩

theorem indexSet_eq_range (h : ∀ j < self.maximum, self.bitAt blk j = true) :
    self.indexSet blk = Finset.range self.maximum :=
  Finset.filter_true_of_mem fun j hj => h j (Finset.mem_range.mp hj)

/-- `decomposition` gives back the block, the word and the bit from which `alloc` has computed
the index, and these are where it has set a bit. -/
theorem allocIn_decomposition {blockId : Nat} {b b' : Block}
    (h : allocIn blockId b = (some i, b')) :
    ∃ bits64Pos < 64, ∃ innerPos < 64, i = blockId * blockBits + bits64Pos * 64 + innerPos ∧
      decomposition i = (blockId, bits64Pos, innerPos) ∧
      b' = b.setBits64 bits64Pos (b.bits64 bits64Pos ||| 1#64 <<< innerPos) := by
  have hbits : blockBits = 4096 := rfl
  rcases allocIn_spec blockId b with ⟨hnone, -⟩ | ⟨j, hj, hsome, -⟩
  · rw [hnone] at h
    cases h
  · rw [hsome] at h
    cases h
    have hblock : (blockId * 4096 + j) / 4096 = blockId := by omega
    have hrest : (blockId * 4096 + j) % 4096 = j := by omega
    refine ⟨j / 64, by omega, j % 64, by omega, ?_, ?_, rfl⟩
    · rw [hbits]
      omega
    · rw [decomposition, hbits, hblock, hrest]

/-- Bit `i` of the bitmap in terms of `decomposition`. -/
theorem setBit_eq {blockPos bits64Pos innerPos : Nat}
    (h : decomposition i = (blockPos, bits64Pos, innerPos)) :
    self.setBit blk i = Function.update blk (blockPos + self.startBlockId)
      ((blk (blockPos + self.startBlockId)).setBits64 bits64Pos
        ((blk (blockPos + self.startBlockId)).bits64 bits64Pos ||| 1#64 <<< innerPos)) := by
  have hbits : blockBits = 4096 := rfl
  rw [decomposition, hbits, Prod.mk.injEq, Prod.mk.injEq] at h
  rw [setBit, Block.setBit, h.1, h.2.1, h.2.2]

theorem hasBlock_of_lt (hi : i < self.maximum) : self.HasBlock (i / 4096 + self.startBlockId) := by
  rw [maximum_eq] at hi
  exact ⟨by omega, by omega⟩

end Bitmap

/-! ## Calls on the block cache -/

/-- No block of the cache is in hand. -/
def CacheState.Quiet (s : CacheState) : Prop := s.Holding []

theorem Represents.quiet {s : CacheState} {blk : Nat → Block} (h : Represents s ⟨blk, []⟩) :
    s.Quiet := h.holding

namespace Bitmap

variable (self : Bitmap) {s s' : CacheState} {i : Nat}

def step (s : CacheState) : BitmapOp → Option (BitmapResult × CacheState)
  | .alloc => do
      let (r, s) ← self.alloc.exec cacheBackend s
      some (.bit r, s)
  | .dealloc bit => do
      let ((), s) ← (self.dealloc bit).exec cacheBackend s
      some (.unit, s)

/-- The call names a bit of the bitmap. -/
def InRange : BitmapOp → Prop
  | .alloc => True
  | .dealloc bit => bit < self.maximum

section Calls

variable (hs : s.Quiet)
include hs

theorem step_alloc_free (h : IsLeast {j | j < self.maximum ∧ j ∉ self.indexSet s.content} i) :
    ∃ s', self.step s .alloc = some (.bit (some i), s') ∧ s'.Quiet ∧
      s'.content = self.setBit s.content i := by
  obtain ⟨⟨hlt, hfree⟩, hleast⟩ := h
  have hbefore : ∀ j < i, self.bitAt s.content j = true := by
    intro j hj
    by_contra hclear
    have hmem : j ∉ self.indexSet s.content := fun hin => hclear (self.mem_indexSet.mp hin).2
    exact absurd (hleast ⟨Nat.lt_trans hj hlt, hmem⟩) (Nat.not_le.mpr hj)
  have hrun := self.run_alloc hlt (show ([] : List Nat).length < blockCacheSize by decide)
    ((self.not_mem_indexSet hlt).mp hfree) hbefore fun _ _ => not_mem_nil
  obtain ⟨s', hexec, hrep, -⟩ := cache_simulation.exec_of_run hs hrun
  refine ⟨s', ?_, hrep.quiet, hrep.content_eq⟩
  rw [step, hexec]
  rfl

theorem step_alloc_full (h : self.indexSet s.content = Finset.range self.maximum) :
    ∃ s', self.step s .alloc = some (.bit none, s') ∧ s'.Quiet ∧ s'.content = s.content := by
  have hfull : ∀ j < self.maximum, self.bitAt s.content j = true := by
    intro j hj
    have hmem : j ∈ self.indexSet s.content := by
      rw [h]
      exact Finset.mem_range.mpr hj
    exact (self.mem_indexSet.mp hmem).2
  have hrun := self.run_alloc_full (show ([] : List Nat).length < blockCacheSize by decide) hfull
    fun _ _ => not_mem_nil
  obtain ⟨s', hexec, hrep, -⟩ := cache_simulation.exec_of_run hs hrun
  refine ⟨s', ?_, hrep.quiet, hrep.content_eq⟩
  rw [step, hexec]
  rfl

theorem step_dealloc (hi : i ∈ self.indexSet s.content) :
    ∃ s', self.step s (.dealloc i) = some (.unit, s') ∧ s'.Quiet ∧
      s'.content = self.clearBit s.content i := by
  have hrun := self.run_dealloc (show ([] : List Nat).length < blockCacheSize by decide)
    (self.mem_indexSet.mp hi).2 not_mem_nil
  obtain ⟨s', hexec, hrep, -⟩ := cache_simulation.exec_of_run hs hrun
  refine ⟨s', ?_, hrep.quiet, hrep.content_eq⟩
  rw [step, hexec]
  rfl

theorem step_dealloc_missing (hi : i < self.maximum) (hfree : i ∉ self.indexSet s.content) :
    self.step s (.dealloc i) = none := by
  have hpanic := self.panics_dealloc (show ([] : List Nat).length < blockCacheSize by decide)
    ((self.not_mem_indexSet hi).mp hfree) not_mem_nil
  rw [step, cache_simulation.exec_eq_none hs hpanic.fails]
  rfl

end Calls

theorem full_or_least (blk : Nat → Block) :
    self.indexSet blk = Finset.range self.maximum ∨
      ∃ i, IsLeast {j | j < self.maximum ∧ j ∉ self.indexSet blk} i := by
  by_cases h : ∃ j, j < self.maximum ∧ j ∉ self.indexSet blk
  · exact Or.inr ⟨Nat.find h, Nat.find_spec h, fun j hj => Nat.find_min' h hj⟩
  · left
    apply self.indexSet_eq_range
    intro j hj
    by_contra hbit
    exact h ⟨j, hj, fun hin => hbit (self.mem_indexSet.mp hin).2⟩

/-- What one call does: to the set of indices, and to the blocks. -/
def Effect (s : CacheState) : BitmapOp → Prop
  | .alloc =>
      (self.indexSet s.content = Finset.range self.maximum ∧
        ∃ s', self.step s .alloc = some (.bit none, s') ∧ s'.content = s.content) ∨
      ∃ i s', IsLeast {j | j < self.maximum ∧ j ∉ self.indexSet s.content} i ∧
        self.step s .alloc = some (.bit (some i), s') ∧
        self.indexSet s'.content = insert i (self.indexSet s.content) ∧
        ∀ blockPos bits64Pos innerPos, decomposition i = (blockPos, bits64Pos, innerPos) →
          s'.content = Function.update s.content (blockPos + self.startBlockId)
            ((s.content (blockPos + self.startBlockId)).setBits64 bits64Pos
              ((s.content (blockPos + self.startBlockId)).bits64 bits64Pos |||
                1#64 <<< innerPos))
  | .dealloc bit =>
      (bit ∉ self.indexSet s.content ∧ self.step s (.dealloc bit) = none) ∨
      bit ∈ self.indexSet s.content ∧ ∃ s', self.step s (.dealloc bit) = some (.unit, s') ∧
        self.indexSet s'.content = (self.indexSet s.content).erase bit ∧
        ∀ id, id ≠ (decomposition bit).1 + self.startBlockId → s'.content id = s.content id

variable {op : BitmapOp}

theorem effect (hs : s.Quiet) (hop : self.InRange op) : self.Effect s op := by
  cases op with
  | alloc =>
    rcases self.full_or_least s.content with hfull | ⟨i, hleast⟩
    · obtain ⟨s', hstep, -, hcontent⟩ := self.step_alloc_full hs hfull
      exact Or.inl ⟨hfull, s', hstep, hcontent⟩
    · obtain ⟨s', hstep, -, hcontent⟩ := self.step_alloc_free hs hleast
      refine Or.inr ⟨i, s', hleast, hstep, ?_, ?_⟩
      · rw [hcontent, self.indexSet_setBit hleast.1.1]
      · intro blockPos bits64Pos innerPos hdec
        rw [hcontent, self.setBit_eq hdec]
  | dealloc bit =>
    by_cases hmem : bit ∈ self.indexSet s.content
    · obtain ⟨s', hstep, -, hcontent⟩ := self.step_dealloc hs hmem
      refine Or.inr ⟨hmem, s', hstep, ?_, ?_⟩
      · rw [hcontent, self.indexSet_clearBit (self.mem_indexSet.mp hmem).2]
      · intro id hid
        rw [hcontent]
        exact self.clearBit_of_ne _ hid
    · exact Or.inl ⟨hmem, self.step_dealloc_missing hs hop hmem⟩

theorem step_keeps (hs : s.Quiet) (hop : self.InRange op) {r : BitmapResult}
    (h : self.step s op = some (r, s')) :
    s'.Quiet ∧ ∀ id, ¬self.HasBlock id → s'.content id = s.content id := by
  cases op with
  | alloc =>
    rcases self.full_or_least s.content with hfull | ⟨i, hleast⟩
    · obtain ⟨s'', hstep, hquiet, hcontent⟩ := self.step_alloc_full hs hfull
      cases hstep.symm.trans h
      exact ⟨hquiet, fun id _ => by rw [hcontent]⟩
    · obtain ⟨s'', hstep, hquiet, hcontent⟩ := self.step_alloc_free hs hleast
      cases hstep.symm.trans h
      refine ⟨hquiet, fun id hid => ?_⟩
      rw [hcontent]
      apply self.setBit_of_ne
      rintro rfl
      exact hid (self.hasBlock_of_lt hleast.1.1)
  | dealloc bit =>
    by_cases hmem : bit ∈ self.indexSet s.content
    · obtain ⟨s'', hstep, hquiet, hcontent⟩ := self.step_dealloc hs hmem
      cases hstep.symm.trans h
      refine ⟨hquiet, fun id hid => ?_⟩
      rw [hcontent]
      apply self.clearBit_of_ne
      rintro rfl
      exact hid (self.hasBlock_of_lt hop)
    · rw [self.step_dealloc_missing hs hop hmem] at h
      cases h

theorem step_view (hs : s.Quiet) (hop : self.InRange op) :
    (self.step s op).map (fun p => (p.1, self.indexSet p.2.content)) =
      IndexSet.step self.maximum (self.indexSet s.content) op := by
  cases op with
  | alloc =>
    rcases self.effect hs hop with ⟨hfull, s', hstep, hcontent⟩ | ⟨i, s', hleast, hstep, hset, -⟩
    · rw [hstep, IndexSet.step, IndexSet.leastFree_eq_none hfull, map_some, hcontent]
    · rw [hstep, IndexSet.step, IndexSet.leastFree_eq_some hleast, map_some, hset]
  | dealloc bit =>
    rcases self.effect hs hop with ⟨hmem, hstep⟩ | ⟨hmem, s', hstep, hset, -⟩
    · rw [hstep, IndexSet.step, if_neg hmem]
      rfl
    · rw [hstep, IndexSet.step, if_pos hmem, map_some, hset]

end Bitmap

/-! ## Sequences of calls -/

namespace Bitmap

variable (self : Bitmap) {s s' : CacheState} {ops : List BitmapOp}

/-- The answers to a list of calls, on the block cache. -/
def perform (ops : List BitmapOp) (s : CacheState) : Option (List BitmapResult × CacheState) :=
  Lib.Sequences.perform self.step ops s

theorem inRange_of_mem (hops : ∀ bit, .dealloc bit ∈ ops → bit < self.maximum) :
    ∀ op ∈ ops, self.InRange op := by
  intro op hop
  cases op with
  | alloc => trivial
  | dealloc bit => exact hops bit hop

theorem perform_quiet (hops : ∀ op ∈ ops, self.InRange op) (hs : s.Quiet)
    {rs : List BitmapResult} (h : self.perform ops s = some (rs, s')) :
    s'.Quiet ∧ ∀ id, ¬self.HasBlock id → s'.content id = s.content id := by
  refine perform_keeps (fun s s' => s.Quiet → s'.Quiet ∧
    ∀ id, ¬self.HasBlock id → s'.content id = s.content id) ?_ ?_ ?_ hops h hs
  · exact fun s hs => ⟨hs, fun _ _ => rfl⟩
  · intro s₁ s₂ s₃ h₁ h₂ hs
    obtain ⟨hs₂, hframe₁⟩ := h₁ hs
    obtain ⟨hs₃, hframe₂⟩ := h₂ hs₂
    exact ⟨hs₃, fun id hid => (hframe₂ id hid).trans (hframe₁ id hid)⟩
  · exact fun hop hstep hs => self.step_keeps hs hop hstep

end Bitmap

/-- **A bitmap is a finite set.**  From any contents of the blocks, a list of `alloc` and of
`dealloc` of bits of the bitmap is answered as by the set of the indices whose bits are set, up
to the first `dealloc` of an index that is missing, which panics.  Behind every such list, only
blocks of the bitmap have changed, and every further call has the `Effect` stated above; the
index that `alloc` computes from a block, a word and a bit is the one that `decomposition` takes
apart into them. -/
theorem bitmap_is_finite_set (self : Bitmap) (ops : List BitmapOp)
    (hops : ∀ bit, .dealloc bit ∈ ops → bit < self.maximum) {s : CacheState} (hs : s.Quiet) :
    (self.perform ops s).map (fun p => (p.1, self.indexSet p.2.content)) =
      perform (IndexSet.step self.maximum) ops (self.indexSet s.content) ∧
    (∀ rs s', self.perform ops s = some (rs, s') →
      (∀ id, ¬self.HasBlock id → s'.content id = s.content id) ∧
      ∀ op, self.InRange op → self.Effect s' op) ∧
    ∀ blockId b i b', Bitmap.allocIn blockId b = (some i, b') →
      ∃ bits64Pos < 64, ∃ innerPos < 64, i = blockId * blockBits + bits64Pos * 64 + innerPos ∧
        decomposition i = (blockId, bits64Pos, innerPos) ∧
        b' = b.setBits64 bits64Pos (b.bits64 bits64Pos ||| 1#64 <<< innerPos) := by
  have hrange := self.inRange_of_mem hops
  refine ⟨?_, ?_, fun blockId b i b' h => Bitmap.allocIn_decomposition h⟩
  · exact perform_view CacheState.Quiet (fun s => self.indexSet s.content)
      (fun hs hop => self.step_view hs hop) (fun hs hop h => (self.step_keeps hs hop h).1) hrange hs
  · intro rs s' h
    obtain ⟨hquiet, hframe⟩ := self.perform_quiet hrange hs h
    exact ⟨hframe, fun op hop => self.effect hquiet hop⟩

theorem indexSet_zero (self : Bitmap) : self.indexSet (fun _ => Block.zero) = ∅ := by
  ext i
  rw [Bitmap.mem_indexSet, Bitmap.bitAt, Block.bit_zero]
  simp

/-- One block of clear bits: the first index is taken, given back, and given back once more. -/
theorem bitmap_is_finite_set_twice :
    (Bitmap.perform ⟨2, 1⟩ [.alloc, .dealloc 0, .dealloc 0]
      (CacheState.init fun _ => Block.zero)) = none := by
  have hrep := represents_init fun _ => Block.zero
  have hcontent : (CacheState.init fun _ => Block.zero).content = fun _ => Block.zero :=
    hrep.content_eq
  have hleast : IsLeast {j | j < Bitmap.maximum ⟨2, 1⟩ ∧ j ∉ (∅ : Finset Nat)} 0 :=
    ⟨⟨by decide, by simp⟩, fun j _ => Nat.zero_le j⟩
  obtain ⟨hview, -⟩ := bitmap_is_finite_set ⟨2, 1⟩ [.alloc, .dealloc 0, .dealloc 0]
    (by intro bit hbit; simp at hbit; simp [hbit, Bitmap.maximum, blockBits, blockSz]) hrep.quiet
  rw [hcontent, indexSet_zero] at hview
  have habstract : perform (IndexSet.step (Bitmap.maximum ⟨2, 1⟩))
      [.alloc, .dealloc 0, .dealloc 0] ∅ = none := by
    rw [perform_cons_some (by rw [IndexSet.step, IndexSet.leastFree_eq_some hleast])]
    rfl
  rw [habstract] at hview
  exact Option.map_eq_none_iff.mp hview

end RCore.EasyFs
