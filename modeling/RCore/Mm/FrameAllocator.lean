import Mathlib.Data.List.Nodup
import RCore.Mm.Address

/-!
# Physical frames

The frame allocator hands out recycled frames first and then the frames of its
range in order.  A `FrameTracker` is represented by the page number it owns; its
constructor clears the frame.
-/

namespace RCore.Mm

open List PhysPageNum

/-- The last element of the vector `recycled` is the head of the list. -/
structure StackFrameAllocator where
  current : Nat
  end_ : Nat
  recycled : List Nat

namespace StackFrameAllocator

def alloc (self : StackFrameAllocator) : Option (Nat × StackFrameAllocator) :=
  match self.recycled with
  | ppn :: recycled => some (PhysPageNum.ofUsize ppn, { self with recycled := recycled })
  | [] =>
      if self.current = self.end_ then none
      else some (PhysPageNum.ofUsize self.current, { self with current := self.current + 1 })

/-- `none` is the panic of a frame that has not been allocated. -/
def dealloc (self : StackFrameAllocator) (ppn : Nat) : Option StackFrameAllocator :=
  if ppn ≥ self.current ∨ ppn ∈ self.recycled then none
  else some { self with recycled := ppn :: self.recycled }

theorem alloc_lt {self self' : StackFrameAllocator} {ppn : Nat}
    (h : self.alloc = some (ppn, self')) : ppn < 2 ^ 44 := by
  unfold alloc at h
  split at h
  · cases h
    exact ofUsize_lt _
  · split at h
    · cases h
    · cases h
      exact ofUsize_lt _

/-- The next `n` allocations succeed and return different frames, none of them in use. -/
def Gives (self : StackFrameAllocator) (used : List Nat) : Nat → Prop
  | 0 => True
  | n + 1 => ∃ ppn self', self.alloc = some (ppn, self') ∧ ppn ∉ used ∧
      self'.Gives (ppn :: used) n

theorem Gives.mono {self : StackFrameAllocator} {used used' : List Nat} {n : Nat}
    (h : self.Gives used n) (hsub : ∀ p ∈ used', p ∈ used) : self.Gives used' n := by
  induction n generalizing self used used' with
  | zero => trivial
  | succ n ih =>
    obtain ⟨ppn, self', halloc, hnew, hnext⟩ := h
    refine ⟨ppn, self', halloc, fun hmem => hnew (hsub ppn hmem), ih hnext ?_⟩
    intro p hp
    rcases mem_cons.mp hp with rfl | hp
    · exact mem_cons_self
    · exact mem_cons_of_mem _ (hsub p hp)

theorem Gives.pred {self : StackFrameAllocator} {used : List Nat} {n : Nat}
    (h : self.Gives used (n + 1)) : self.Gives used n := by
  induction n generalizing self used with
  | zero => trivial
  | succ n ih =>
    obtain ⟨ppn, self', halloc, hnew, hnext⟩ := h
    exact ⟨ppn, self', halloc, hnew, ih hnext⟩

/-- The number of frames that can be allocated. -/
def available (self : StackFrameAllocator) : Nat :=
  self.recycled.length + (self.end_ - self.current)

/-! ## Ownership -/

/-- The frames in use and the recycled ones are those from `low` to `current`, each
once; the allocator hands out frames below `high`. -/
structure Owns (low high : Nat) (a : StackFrameAllocator) (used : List Nat) : Prop where
  end_eq : a.end_ = high
  low_le : low ≤ a.current
  current_le : a.current ≤ high
  high_le : high ≤ 2 ^ 44
  count : ∀ p, used.count p + a.recycled.count p = if low ≤ p ∧ p < a.current then 1 else 0

namespace Owns

variable {low high : Nat} {a a' : StackFrameAllocator} {used used' : List Nat} {p : Nat}

section

variable (h : Owns low high a used)
include h

theorem congr (hcount : ∀ p, used'.count p = used.count p) : Owns low high a used' :=
  ⟨h.end_eq, h.low_le, h.current_le, h.high_le, fun p => hcount p ▸ h.count p⟩

theorem nodup : used.Nodup := by
  rw [nodup_iff_count_le_one]
  intro p
  have hp := h.count p
  split at hp <;> omega

theorem mem_range (hp : p ∈ used) : low ≤ p ∧ p < a.current := by
  have hcount := h.count p
  have hpos := count_pos_iff.mpr hp
  by_contra hout
  rw [if_neg hout] at hcount
  omega

theorem lt (hp : p ∈ used) : p < 2 ^ 44 :=
  Nat.lt_of_lt_of_le (h.mem_range hp).2 (h.current_le.trans h.high_le)

theorem notMem_recycled (hp : p ∈ used) : p ∉ a.recycled := by
  have hcount := h.count p
  have hpos := count_pos_iff.mpr hp
  rw [← count_eq_zero]
  split at hcount <;> omega

theorem length_add_length : used.length + a.recycled.length = a.current - low := by
  have hnodup : (range' low (a.current - low)).Nodup := nodup_range'
  have hperm : (used ++ a.recycled).Perm (range' low (a.current - low)) := by
    rw [perm_iff_count]
    intro p
    rw [count_append, h.count p, hnodup.count]
    simp only [mem_range'_1]
    have hle := h.low_le
    congr 1
    apply propext
    omega
  simpa using hperm.length_eq

theorem add_available : low + used.length + a.available = high := by
  have hlength := h.length_add_length
  have hlow := h.low_le
  have hend := h.end_eq
  have hle := h.current_le
  rw [available]
  omega

/-- A new frame is one that was not in use. -/
theorem alloc (halloc : a.alloc = some (p, a')) : p ∉ used ∧ Owns low high a' (p :: used) := by
  have hlow := h.low_le
  have hle := h.current_le
  have hhigh := h.high_le
  have hend := h.end_eq
  rw [← count_eq_zero]
  rw [StackFrameAllocator.alloc] at halloc
  cases hrecycled : a.recycled with
  | nil =>
    simp only [hrecycled, Option.ite_none_left_eq_some, Option.some.injEq, Prod.mk.injEq,
      ofUsize_eq] at halloc
    obtain ⟨hne, rfl, rfl⟩ := halloc
    rw [Nat.mod_eq_of_lt (by omega)]
    have hcount := h.count
    simp only [hrecycled, count_nil, Nat.add_zero] at hcount
    refine ⟨by rw [hcount, if_neg (by omega)], h.end_eq, by simp only; omega, by simp only; omega,
      hhigh, fun q => ?_⟩
    rw [count_cons, hcount, count_nil]
    simp only [beq_iff_eq]
    split <;> split <;> split <;> omega
  | cons first recycled =>
    have hcount := h.count
    simp only [hrecycled, count_cons, beq_iff_eq] at hcount
    have hfirst := hcount first
    rw [if_pos rfl] at hfirst
    have hlt : first < 2 ^ 44 := by
      split at hfirst <;> omega
    simp only [hrecycled, Option.some.injEq, Prod.mk.injEq, ofUsize_eq,
      Nat.mod_eq_of_lt hlt] at halloc
    obtain ⟨rfl, rfl⟩ := halloc
    refine ⟨by split at hfirst <;> omega, h.end_eq, hlow, hle, hhigh, fun q => ?_⟩
    have hq := hcount q
    rw [count_cons]
    simp only [beq_iff_eq]
    omega

theorem alloc_eq_none (halloc : a.alloc = none) : high ≤ low + used.length := by
  have hlength := h.length_add_length
  have hend := h.end_eq
  rw [StackFrameAllocator.alloc] at halloc
  cases hrecycled : a.recycled with
  | nil =>
    simp only [hrecycled, ite_eq_left_iff, reduceCtorEq, imp_false, not_not] at halloc
    rw [hrecycled, length_nil] at hlength
    omega
  | cons first recycled => simp [hrecycled] at halloc

theorem dealloc (hp : p ∈ used) :
    a.dealloc p = some { a with recycled := p :: a.recycled } ∧
      Owns low high { a with recycled := p :: a.recycled } (used.erase p) := by
  have hrange := h.mem_range hp
  have hpos := count_pos_iff.mpr hp
  have hfree := h.notMem_recycled hp
  refine ⟨if_neg (by simp [hfree, hrange.2]), h.end_eq, h.low_le, h.current_le, h.high_le,
    fun q => ?_⟩
  have hq := h.count q
  rw [count_erase, count_cons]
  by_cases heq : p = q
  · subst heq
    simp only [beq_self_eq_true, if_true]
    omega
  · simpa [heq] using hq

end

end Owns

end StackFrameAllocator

/-- Physical memory and the allocator of its frames. -/
structure PhysMem where
  bytes : Memory
  allocator : StackFrameAllocator

def frameAlloc (s : PhysMem) : Option (Nat × PhysMem) := do
  let (ppn, allocator) ← s.allocator.alloc
  some (ppn, { bytes := s.bytes.clearFrame ppn, allocator := allocator })

def frameDealloc (s : PhysMem) (ppn : Nat) : Option PhysMem := do
  let allocator ← s.allocator.dealloc ppn
  some { s with allocator := allocator }

/-- The range of frames of `init_frame_allocator`, from the end of the kernel image. -/
def initFrameAllocator (ekernel : Nat) : StackFrameAllocator where
  current := PhysAddr.ceil (PhysAddr.ofUsize ekernel)
  end_ := PhysAddr.floor (PhysAddr.ofUsize memoryEnd)
  recycled := []

end RCore.Mm
