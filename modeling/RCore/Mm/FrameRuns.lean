import RCore.Mm.FrameAllocator

/-!
# Runs of the frame allocator

Any sequence of `alloc` and `dealloc` after `init`.  A call that panics leaves everything
as it was.  The frames that are allocated are those that have been returned by `alloc` and
not been accepted by `dealloc` since.  `dealloc` compares a frame with `current` and with the
recycled frames, but not with the first frame of the range.
-/

namespace RCore.Mm

open List

namespace StackFrameAllocator

def new : StackFrameAllocator := ⟨0, 0, []⟩

def init (self : StackFrameAllocator) (l r : Nat) : StackFrameAllocator :=
  { self with current := l, end_ := r }

end StackFrameAllocator

inductive FrameCall where
  | alloc
  | dealloc (ppn : Nat)
  deriving DecidableEq, Repr

/-- The allocator and the frames that are allocated. -/
structure FrameState where
  allocator : StackFrameAllocator
  allocated : List Nat

namespace FrameState

/-- After `init(l, r)`. -/
def start (l r : Nat) : FrameState := ⟨StackFrameAllocator.new.init l r, []⟩

def step (σ : FrameState) : FrameCall → FrameState
  | .alloc =>
      match σ.allocator.alloc with
      | none => σ
      | some (ppn, allocator) => ⟨allocator, ppn :: σ.allocated⟩
  | .dealloc ppn =>
      match σ.allocator.dealloc ppn with
      | none => σ
      | some allocator => ⟨allocator, σ.allocated.erase ppn⟩

def run (σ : FrameState) (calls : List FrameCall) : FrameState := calls.foldl step σ

/-- The frames from `l` to `current` are the allocated ones and the recycled ones. -/
structure Partition (l : Nat) (σ : FrameState) : Prop where
  union : ∀ p, l ≤ p ∧ p < σ.allocator.current ↔ p ∈ σ.allocated ∨ p ∈ σ.allocator.recycled
  disjoint : ∀ p ∈ σ.allocated, p ∉ σ.allocator.recycled
  nodup : σ.allocator.recycled.Nodup

/-- What a call has to do: `dealloc` panics for the frames that are not allocated, `alloc`
returns a frame of the range that is not allocated, unless all of them are. -/
def Handles (l r : Nat) (σ : FrameState) : FrameCall → Prop
  | .alloc =>
      (∀ ppn allocator, σ.allocator.alloc = some (ppn, allocator) →
        l ≤ ppn ∧ ppn < r ∧ ppn ∉ σ.allocated) ∧
      (σ.allocator.alloc = none ↔ ∀ p, l ≤ p → p < r → p ∈ σ.allocated)
  | .dealloc ppn => σ.allocator.dealloc ppn = none ↔ ppn ∉ σ.allocated

variable {l r : Nat} {σ : FrameState}

theorem owns_start (hle : l ≤ r) (hr : r < 2 ^ 44) :
    (start l r).allocator.Owns l r (start l r).allocated where
  end_eq := rfl
  low_le := Nat.le_refl l
  current_le := hle
  high_le := Nat.le_of_lt hr
  count p := by
    have hempty : ¬(l ≤ p ∧ p < l) := fun h => Nat.lt_irrefl _ (Nat.lt_of_le_of_lt h.1 h.2)
    change 0 + 0 = if l ≤ p ∧ p < l then 1 else 0
    rw [if_neg hempty]

end FrameState

namespace StackFrameAllocator.Owns

variable {low high p : Nat} {a : StackFrameAllocator} {used : List Nat}

theorem mem_or_mem_recycled (h : Owns low high a used) :
    low ≤ p ∧ p < a.current ↔ p ∈ used ∨ p ∈ a.recycled := by
  have hcount := h.count p
  rw [← count_pos_iff, ← count_pos_iff]
  split at hcount <;> omega

theorem nodup_recycled (h : Owns low high a used) : a.recycled.Nodup := by
  rw [nodup_iff_count_le_one]
  intro p
  have hcount := h.count p
  split at hcount <;> omega

theorem dealloc_eq_none (h : Owns low high a used) (hlow : low ≤ p) :
    a.dealloc p = none ↔ p ∉ used := by
  constructor
  · intro hnone hp
    rw [(h.dealloc hp).1] at hnone
    cases hnone
  · intro hp
    unfold StackFrameAllocator.dealloc
    apply if_pos
    by_contra hfree
    rw [not_or, Nat.not_le] at hfree
    rcases h.mem_or_mem_recycled.mp ⟨hlow, hfree.1⟩ with hused | hrecycled
    · exact hp hused
    · exact hfree.2 hrecycled

theorem dealloc_of_lt (h : Owns low high a used) (hlow : p < low) :
    a.dealloc p ≠ none ∧ p ∉ used := by
  have hout : ¬(p ∈ used ∨ p ∈ a.recycled) := by
    rw [← h.mem_or_mem_recycled]
    omega
  rw [not_or] at hout
  refine ⟨?_, hout.1⟩
  unfold StackFrameAllocator.dealloc
  rw [if_neg]
  · exact Option.some_ne_none _
  · have hle := h.low_le
    rw [not_or]
    exact ⟨by omega, hout.2⟩

theorem alloc_range {a' : StackFrameAllocator} (h : Owns low high a used)
    (halloc : a.alloc = some (p, a')) : low ≤ p ∧ p < high ∧ p ∉ used := by
  obtain ⟨hnew, howns⟩ := h.alloc halloc
  obtain ⟨hlow, hhigh⟩ := howns.mem_range mem_cons_self
  exact ⟨hlow, Nat.lt_of_lt_of_le hhigh howns.current_le, hnew⟩

theorem alloc_eq_none_iff (h : Owns low high a used) :
    a.alloc = none ↔ ∀ p, low ≤ p → p < high → p ∈ used := by
  constructor
  · intro hnone p hlow hhigh
    have hfull := h.alloc_eq_none hnone
    have hlength := h.length_add_length
    have hcurrent := h.current_le
    have hempty : a.recycled = [] := eq_nil_of_length_eq_zero (by omega)
    have hmem := h.mem_or_mem_recycled.mp ⟨hlow, by omega⟩
    rw [hempty] at hmem
    simpa using hmem
  · intro hall
    cases halloc : a.alloc with
    | none => rfl
    | some next =>
      obtain ⟨hlow, hhigh, hnew⟩ := h.alloc_range halloc
      exact absurd (hall _ hlow hhigh) hnew

end StackFrameAllocator.Owns

namespace FrameState

open StackFrameAllocator

variable {l r : Nat} {σ : FrameState}

section

variable (h : σ.allocator.Owns l r σ.allocated)
include h

theorem partition_of_owns : Partition l σ where
  union _ := h.mem_or_mem_recycled
  disjoint _ := h.notMem_recycled
  nodup := h.nodup_recycled

theorem handles_of_owns {call : FrameCall} (hcall : ∀ ppn, call = .dealloc ppn → l ≤ ppn) :
    Handles l r σ call := by
  cases call with
  | alloc => exact ⟨fun _ _ => h.alloc_range, h.alloc_eq_none_iff⟩
  | dealloc ppn => exact h.dealloc_eq_none (hcall ppn rfl)

theorem owns_step {call : FrameCall} (hcall : ∀ ppn, call = .dealloc ppn → l ≤ ppn) :
    (σ.step call).allocator.Owns l r (σ.step call).allocated := by
  cases call with
  | alloc =>
    cases halloc : σ.allocator.alloc with
    | none => simpa only [step, halloc] using h
    | some next =>
      simp only [step, halloc]
      exact (h.alloc halloc).2
  | dealloc ppn =>
    by_cases hp : ppn ∈ σ.allocated
    · obtain ⟨hdealloc, howns⟩ := h.dealloc hp
      simp only [step, hdealloc]
      exact howns
    · have hnone := (h.dealloc_eq_none (hcall ppn rfl)).mpr hp
      simpa only [step, hnone] using h

theorem owns_run {calls : List FrameCall}
    (hcalls : ∀ ppn, FrameCall.dealloc ppn ∈ calls → l ≤ ppn) :
    (σ.run calls).allocator.Owns l r (σ.run calls).allocated := by
  induction calls generalizing σ with
  | nil => exact h
  | cons call calls ih =>
    have hcall : ∀ ppn, call = .dealloc ppn → l ≤ ppn :=
      fun ppn heq => hcalls ppn (heq ▸ mem_cons_self)
    exact ih (owns_step h hcall) fun ppn hmem => hcalls ppn (mem_cons_of_mem _ hmem)

end

theorem exists_first_below {calls : List FrameCall}
    (h : ¬∀ ppn, FrameCall.dealloc ppn ∈ calls → l ≤ ppn) :
    ∃ before ppn after, calls = before ++ .dealloc ppn :: after ∧ ppn < l ∧
      ∀ ppn, FrameCall.dealloc ppn ∈ before → l ≤ ppn := by
  induction calls with
  | nil => simp at h
  | cons call calls ih =>
    by_cases hfirst : ∃ ppn, call = .dealloc ppn ∧ ppn < l
    · obtain ⟨ppn, rfl, hlt⟩ := hfirst
      exact ⟨[], ppn, calls, rfl, hlt, by simp⟩
    · have hcall : ∀ ppn, call = .dealloc ppn → l ≤ ppn := fun ppn heq =>
        Nat.le_of_not_lt fun hlt => hfirst ⟨ppn, heq, hlt⟩
      have hrest : ¬∀ ppn, FrameCall.dealloc ppn ∈ calls → l ≤ ppn := by
        intro hall
        refine h fun ppn hmem => ?_
        rcases mem_cons.mp hmem with heq | hmem
        · exact hcall ppn heq.symm
        · exact hall ppn hmem
      obtain ⟨before, ppn, after, rfl, hlt, hbefore⟩ := ih hrest
      refine ⟨call :: before, ppn, after, rfl, hlt, fun other hmem => ?_⟩
      rcases mem_cons.mp hmem with heq | hmem
      · exact hcall other heq.symm
      · exact hbefore other hmem

end FrameState

/-- **When the frame allocator knows what is allocated.**  After `init(l, r)`, and before
each call of a sequence, the frames from `l` to `current` are the allocated and the recycled
ones, and the call does what it has to, exactly if no call of the sequence is a `dealloc` of a
frame below `l`. -/
theorem frame_allocator_exact_iff {l r : Nat} (hle : l ≤ r) (hr : r < 2 ^ 44)
    (calls : List FrameCall) :
    (∀ before after, calls = before ++ after →
      ((FrameState.start l r).run before).Partition l ∧
        ∀ call ∈ after.head?, ((FrameState.start l r).run before).Handles l r call) ↔
      ∀ ppn, FrameCall.dealloc ppn ∈ calls → l ≤ ppn := by
  have hstart := FrameState.owns_start hle hr
  constructor
  · intro hall
    by_contra hbelow
    -- up to the first such call the frames are told apart, so that the call is seen to be wrong
    obtain ⟨before, ppn, after, rfl, hlt, hbefore⟩ := FrameState.exists_first_below hbelow
    have howns := FrameState.owns_run hstart hbefore
    obtain ⟨haccepted, hnot⟩ := howns.dealloc_of_lt hlt
    have hhandles := (hall before _ rfl).2 (.dealloc ppn) rfl
    exact haccepted (hhandles.mpr hnot)
  · rintro hcalls before after rfl
    have hbefore : ∀ ppn, FrameCall.dealloc ppn ∈ before → l ≤ ppn :=
      fun ppn hmem => hcalls ppn (List.mem_append_left _ hmem)
    have howns := FrameState.owns_run hstart hbefore
    refine ⟨FrameState.partition_of_owns howns, fun call hhead => ?_⟩
    refine FrameState.handles_of_owns howns fun ppn heq => hcalls ppn ?_
    exact List.mem_append_right _ (List.mem_of_mem_head? (heq ▸ hhead))

/-- Two frames are allocated and one is given back. -/
theorem frame_allocator_exact_iff_recycled :
    ((FrameState.start 100 200).run [.alloc, .alloc, .dealloc 100]).Partition 100 ∧
      ((FrameState.start 100 200).run [.alloc, .alloc, .dealloc 100]).allocated = [101] := by
  have hcalls : ∀ ppn, FrameCall.dealloc ppn ∈
      [FrameCall.alloc, .alloc, .dealloc 100] → 100 ≤ ppn := by
    intro ppn hmem
    obtain rfl : ppn = 100 := by simpa using hmem
    exact Nat.le_refl _
  have hall := (frame_allocator_exact_iff (l := 100) (r := 200) (by decide) (by decide) _).mpr hcalls
  exact ⟨(hall _ [] (by simp)).1, by decide⟩

/-- A frame of the kernel image is given back before anything has been allocated; it is
accepted, and handed out by the next `alloc`. -/
theorem frame_below_range_handed_out :
    ¬(FrameState.start 100 200).Handles 100 200 (.dealloc 5) ∧
      ¬((FrameState.start 100 200).run [.dealloc 5]).Handles 100 200 .alloc ∧
      ((FrameState.start 100 200).run [.dealloc 5, .alloc]).allocated = [5] := by
  refine ⟨fun h => ?_, fun h => ?_, by decide⟩
  · have hnone := h.mpr (by decide)
    exact absurd hnone (by decide)
  · have hrange := h.1 5 ⟨100, 200, []⟩ rfl
    exact absurd hrange.1 (by decide)

end RCore.Mm
