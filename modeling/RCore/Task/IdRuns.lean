import RCore.Task.Id
import Mathlib.Data.Finset.Lattice.Fold
import Mathlib.Data.Finset.Card
import Mathlib.Data.Finset.Range
import Mathlib.Order.Lattice.Nat

/-!
# Runs of the identifier allocator

An allocator sees any list of calls, `dealloc` with any number, and a call that panics leaves
it as it was.  Which identifiers are allocated is read off the events of the calls.
-/

namespace RCore.Task

open List

inductive IdCall where
  | alloc
  | dealloc (id : Nat)

inductive IdEvent where
  | allocated (id : Nat)
  | deallocated (id : Nat)
  | panicked (id : Nat)
  deriving DecidableEq

/-- An identifier is allocated from the call that returns it to the one that takes it back. -/
def allocatedIds (past : List IdEvent) : Finset Nat :=
  past.foldl (fun ids event =>
    match event with
    | .allocated id => insert id ids
    | .deallocated id => ids.erase id
    | .panicked _ => ids) ∅

/-- The largest number of identifiers that were allocated at once. -/
def mostAllocated (past : List IdEvent) : Nat :=
  (Finset.range (past.length + 1)).sup fun n => (allocatedIds (past.take n)).card

namespace RecycleAllocator

def perform (self : RecycleAllocator) : IdCall → IdEvent × RecycleAllocator
  | .alloc => (.allocated self.alloc.1, self.alloc.2)
  | .dealloc id =>
      match self.dealloc id with
      | some self' => (.deallocated id, self')
      | none => (.panicked id, self)

/-- The events of a list of calls on a new allocator, and the allocator behind them. -/
def performAll (calls : List IdCall) : List IdEvent × RecycleAllocator :=
  calls.foldl (fun run call => (run.1 ++ [(run.2.perform call).1], (run.2.perform call).2)) ([], new)

theorem performAll_concat (calls : List IdCall) (call : IdCall) :
    performAll (calls ++ [call]) =
      ((performAll calls).1 ++ [((performAll calls).2.perform call).1],
        ((performAll calls).2.perform call).2) := by
  rw [performAll, foldl_append]
  rfl

theorem card_take_le {past : List IdEvent} {n : Nat} (hn : n ≤ past.length) :
    (allocatedIds (past.take n)).card ≤ mostAllocated past :=
  Finset.le_sup (f := fun n => (allocatedIds (past.take n)).card) (Finset.mem_range_succ_iff.mpr hn)

theorem card_le_mostAllocated (past : List IdEvent) :
    (allocatedIds past).card ≤ mostAllocated past := by
  have hle := card_take_le (Nat.le_refl past.length)
  rwa [take_length] at hle

theorem mostAllocated_le_concat (past : List IdEvent) (event : IdEvent) :
    mostAllocated past ≤ mostAllocated (past ++ [event]) := by
  apply Finset.sup_le
  intro n hn
  rw [Finset.mem_range_succ_iff] at hn
  have htake : (past ++ [event]).take n = past.take n := take_append_of_le_length hn
  rw [← htake]
  apply card_take_le
  rw [length_append]
  omega

section Owns

variable {a : RecycleAllocator} {used : List Nat} (h : a.Owns used)
include h

theorem Owns.lt_current_iff (id : Nat) : id < a.current ↔ id ∈ used ∨ id ∈ a.recycled := by
  have hown := h id
  rw [← count_pos_iff, ← count_pos_iff]
  split at hown <;> omega

theorem Owns.notMem_recycled {id : Nat} (hid : id ∈ used) : id ∉ a.recycled := by
  have hown := h id
  have hused := count_pos_iff.mpr hid
  rw [← count_eq_zero]
  split at hown <;> omega

theorem Owns.nodup_recycled : a.recycled.Nodup := by
  rw [nodup_iff_count_le_one]
  intro id
  have hown := h id
  split at hown <;> omega

theorem Owns.dealloc_eq_none (id : Nat) : a.dealloc id = none ↔ id ∉ used := by
  rw [RecycleAllocator.dealloc, ite_eq_right_iff, h.lt_current_iff]
  constructor
  · intro hnone hid
    cases hnone ⟨.inl hid, h.notMem_recycled hid⟩
  · rintro hid ⟨hused | hrecycled, hfresh⟩
    · exact absurd hused hid
    · exact absurd hrecycled hfresh

end Owns

/-- The identifiers in use are the allocated ones, and there were once as many of them as
`current` says. -/
structure Accounts (a : RecycleAllocator) (past : List IdEvent) (used : List Nat) : Prop where
  owns : a.Owns used
  allocated : allocatedIds past = used.toFinset
  current_le : a.current ≤ mostAllocated past

section Accounts

variable {a : RecycleAllocator} {past : List IdEvent} {used : List Nat}
  (h : Accounts a past used)
include h

theorem Accounts.alloc :
    Accounts a.alloc.2 (past ++ [.allocated a.alloc.1]) (a.alloc.1 :: used) := by
  have hallocated : allocatedIds (past ++ [.allocated a.alloc.1]) =
      (a.alloc.1 :: used).toFinset := by
    rw [allocatedIds, foldl_append, toFinset_cons, ← h.allocated]
    rfl
  have hcard := card_le_mostAllocated (past ++ [.allocated a.alloc.1])
  rw [hallocated, toFinset_card_of_nodup h.owns.alloc.nodup, length_cons] at hcard
  have hgrows := mostAllocated_le_concat past (.allocated a.alloc.1)
  refine ⟨h.owns.alloc, hallocated, ?_⟩
  calc a.alloc.2.current ≤ max a.current (used.length + 1) := h.owns.current_alloc_le
    _ ≤ mostAllocated (past ++ [.allocated a.alloc.1]) :=
        Nat.max_le.mpr ⟨Nat.le_trans h.current_le hgrows, hcard⟩

theorem Accounts.perform (call : IdCall) :
    ∃ used', Accounts (a.perform call).2 (past ++ [(a.perform call).1]) used' := by
  cases call with
  | alloc => exact ⟨_, h.alloc⟩
  | dealloc id =>
    rw [RecycleAllocator.perform]
    by_cases hid : id ∈ used
    · obtain ⟨a', hdealloc, hcurrent, howns⟩ := h.owns.dealloc hid
      rw [hdealloc]
      refine ⟨used.erase id, howns, ?_, ?_⟩
      · have herase : (used.erase id).toFinset = used.toFinset.erase id := by
          ext other
          rw [Finset.mem_erase, mem_toFinset, mem_toFinset, h.owns.nodup.mem_erase_iff]
        rw [allocatedIds, foldl_append, herase, ← h.allocated]
        rfl
      · rw [hcurrent]
        exact Nat.le_trans h.current_le (mostAllocated_le_concat ..)
    · rw [(h.owns.dealloc_eq_none id).mpr hid]
      refine ⟨used, h.owns, ?_, Nat.le_trans h.current_le (mostAllocated_le_concat ..)⟩
      rw [allocatedIds, foldl_append, ← h.allocated]
      rfl

end Accounts

theorem exists_accounts (calls : List IdCall) :
    ∃ used, Accounts (performAll calls).2 (performAll calls).1 used := by
  induction calls using reverseRecOn with
  | nil => exact ⟨[], owns_new, rfl, Nat.zero_le _⟩
  | append_singleton calls call ih =>
    obtain ⟨used, h⟩ := ih
    rw [performAll_concat]
    exact h.perform call

/-- **Identifiers.**  After any calls on a new allocator, `alloc` returns none of the allocated
identifiers, `dealloc` panics exactly for the numbers that are not allocated, and `current` divides
the numbers: below it are the allocated and the recycled ones, each once, and as many as it says
were once allocated at the same time. -/
theorem recycle_allocator_partitions (calls : List IdCall) :
    let past := (performAll calls).1
    let a := (performAll calls).2
    a.alloc.1 ∉ allocatedIds past ∧
      (∀ id, a.dealloc id = none ↔ id ∉ allocatedIds past) ∧
      allocatedIds past ∪ a.recycled.toFinset = Finset.range a.current ∧
      Disjoint (allocatedIds past) a.recycled.toFinset ∧ a.recycled.Nodup ∧
      a.current ≤ mostAllocated past := by
  intro past a
  obtain ⟨used, h⟩ := exists_accounts calls
  rw [h.allocated]
  refine ⟨?_, ?_, ?_, ?_, h.owns.nodup_recycled, h.current_le⟩
  · rw [List.mem_toFinset]
    exact h.owns.alloc_notMem
  · intro id
    rw [List.mem_toFinset]
    exact h.owns.dealloc_eq_none id
  · ext id
    rw [Finset.mem_union, List.mem_toFinset, List.mem_toFinset, Finset.mem_range,
      h.owns.lt_current_iff]
  · rw [Finset.disjoint_left]
    intro id hid
    rw [List.mem_toFinset] at hid ⊢
    exact h.owns.notMem_recycled hid

/-- `alloc` with the counter as a machine word. -/
def allocUsize (self : RecycleAllocator) : Nat × RecycleAllocator :=
  match self.recycled with
  | id :: recycled => (id, { self with recycled := recycled })
  | [] =>
      let current := (self.current + 1) % 2 ^ 64
      ((current + (2 ^ 64 - 1)) % 2 ^ 64, { self with current := current })

/-- The counter wraps around only where `2 ^ 64 - 1` identifiers were allocated at once. -/
theorem allocUsize_performAll (calls : List IdCall)
    (h : mostAllocated (performAll calls).1 < 2 ^ 64 - 1) :
    (performAll calls).2.allocUsize = (performAll calls).2.alloc := by
  obtain ⟨used, haccounts⟩ := exists_accounts calls
  have hlt := Nat.lt_of_le_of_lt haccounts.current_le h
  rw [allocUsize, RecycleAllocator.alloc]
  cases (performAll calls).2.recycled with
  | cons id recycled => rfl
  | nil =>
    have hcurrent : ((performAll calls).2.current + 1) % 2 ^ 64 =
        (performAll calls).2.current + 1 := by omega
    have hid : ((performAll calls).2.current + 1 + (2 ^ 64 - 1)) % 2 ^ 64 =
        (performAll calls).2.current := by omega
    simp only [hcurrent, hid]

end RecycleAllocator

end RCore.Task
