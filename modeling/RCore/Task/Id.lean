import Mathlib.Data.List.Nodup

/-!
# Identifiers

`RecycleAllocator` hands out process and thread identifiers; freed ones are
reused first, the last freed one before the others.
-/

namespace RCore.Task

open List

/-- The last element of the vector `recycled` is the head of the list. -/
structure RecycleAllocator where
  current : Nat
  recycled : List Nat

namespace RecycleAllocator

def new : RecycleAllocator where
  current := 0
  recycled := []

def alloc (self : RecycleAllocator) : Nat × RecycleAllocator :=
  match self.recycled with
  | id :: recycled => (id, { self with recycled := recycled })
  | [] => (self.current, { self with current := self.current + 1 })

/-- `none` is a failed assertion. -/
def dealloc (self : RecycleAllocator) (id : Nat) : Option RecycleAllocator :=
  if id < self.current ∧ id ∉ self.recycled then
    some { self with recycled := id :: self.recycled }
  else none

/-- The identifiers in use and the recycled ones are those below `current`, each
once. -/
def Owns (self : RecycleAllocator) (used : List Nat) : Prop :=
  ∀ id, used.count id + self.recycled.count id = if id < self.current then 1 else 0

variable {a : RecycleAllocator} {used : List Nat}

theorem owns_new : new.Owns [] := by
  intro id
  simp [new]

theorem Owns.congr {used' : List Nat} (h : a.Owns used)
    (hcount : ∀ id, used'.count id = used.count id) : a.Owns used' := by
  intro id
  rw [hcount id, h id]

theorem Owns.alloc_notMem (h : a.Owns used) : a.alloc.1 ∉ used := by
  rw [← count_eq_zero]
  have hid := h a.alloc.1
  rw [alloc] at hid ⊢
  cases hrecycled : a.recycled with
  | nil =>
    simp only [hrecycled, count_nil, Nat.lt_irrefl, if_false] at hid ⊢
    omega
  | cons id recycled =>
    simp only [hrecycled, count_cons_self] at hid ⊢
    split at hid <;> omega

theorem Owns.alloc (h : a.Owns used) : a.alloc.2.Owns (a.alloc.1 :: used) := by
  intro id
  have hid := h id
  rw [RecycleAllocator.alloc]
  cases hrecycled : a.recycled with
  | nil =>
    simp only [hrecycled, count_nil, count_cons, beq_iff_eq] at hid ⊢
    split <;> split at hid <;> split <;> omega
  | cons first recycled =>
    simp only [hrecycled, count_cons, beq_iff_eq] at hid ⊢
    omega

theorem Owns.lt {id : Nat} (h : a.Owns used) (hid : id ∈ used) : id < a.current := by
  have hused := count_pos_iff.mpr hid
  have hown := h id
  by_contra hge
  rw [if_neg hge] at hown
  omega

theorem Owns.nodup (h : a.Owns used) : used.Nodup := by
  rw [nodup_iff_count_le_one]
  intro id
  have hown := h id
  split at hown <;> omega

theorem Owns.dealloc {id : Nat} (h : a.Owns used) (hid : id ∈ used) :
    ∃ a', a.dealloc id = some a' ∧ a'.current = a.current ∧ a'.Owns (used.erase id) := by
  have hused := count_pos_iff.mpr hid
  have hlt := h.lt hid
  have hown := h id
  rw [if_pos hlt] at hown
  have hfresh : id ∉ a.recycled := count_eq_zero.mp (by omega)
  refine ⟨_, if_pos ⟨hlt, hfresh⟩, rfl, fun other => ?_⟩
  have hother := h other
  rw [count_erase, count_cons]
  by_cases heq : id = other
  · subst heq
    simp only [beq_self_eq_true, if_true] at hother ⊢
    omega
  · simpa [heq] using hother

theorem Owns.length_add_length (h : a.Owns used) :
    used.length + a.recycled.length = a.current := by
  have hperm : (used ++ a.recycled).Perm (List.range a.current) := by
    rw [perm_iff_count]
    intro id
    rw [count_append, h id, nodup_range.count]
    simp only [mem_range]
  simpa using hperm.length_eq

/-- `current` is one more than the largest identifier ever handed out. -/
theorem Owns.current_alloc (h : a.Owns used) :
    a.alloc.2.current = max a.current (a.alloc.1 + 1) := by
  have hlt := h.alloc.lt (mem_cons_self ..)
  rw [RecycleAllocator.alloc] at hlt ⊢
  cases hrecycled : a.recycled with
  | nil => simp
  | cons id recycled =>
    simp only [hrecycled] at hlt ⊢
    omega

theorem Owns.current_alloc_le (h : a.Owns used) :
    a.alloc.2.current ≤ max a.current (used.length + 1) := by
  have hlength := h.length_add_length
  rw [RecycleAllocator.alloc]
  cases hrecycled : a.recycled with
  | nil =>
    rw [hrecycled, length_nil] at hlength
    simp only
    omega
  | cons id recycled => exact Nat.le_max_left _ _

theorem Owns.eq_singleton {id : Nat} (h : a.Owns used) (hone : a.current = 1) (hid : id ∈ used) :
    used = [id] := by
  have hlength := h.length_add_length
  have hpos := length_pos_of_mem hid
  obtain ⟨other, rfl⟩ := length_eq_one_iff.mp (by omega : used.length = 1)
  rw [mem_singleton.mp hid]

end RecycleAllocator

end RCore.Task
