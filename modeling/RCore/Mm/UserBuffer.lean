import RCore.Mm.Address
import RCore.Lib.Outcome

/-!
# User buffers

A user buffer is a list of slices of physical memory.  Its iterator returns the
address of one byte after the other, slice by slice; `Position` relates the
state of an iterator to the number of bytes it has returned.
-/

namespace RCore.Mm

open List Option

/-- A `&'static mut [u8]`: address and length. -/
structure Slice where
  addr : Nat
  len : Nat

/-- The addresses of the bytes of a slice. -/
def Slice.addrs (b : Slice) : List Nat :=
  (List.range b.len).map (b.addr + ·)

structure UserBuffer where
  buffers : List Slice

/-- The sum of the lengths of the slices. -/
def UserBuffer.len (self : UserBuffer) : Nat :=
  self.buffers.foldl (fun total b => total + b.len) 0

structure UserBufferIterator where
  buffers : List Slice
  currentBuffer : Nat
  currentIdx : Nat

def UserBuffer.intoIter (self : UserBuffer) : UserBufferIterator where
  buffers := self.buffers
  currentBuffer := 0
  currentIdx := 0

namespace UserBufferIterator

/-- The next address and the iterator after it; the outer `none` is an index out of bounds,
which an empty slice causes. -/
def next (self : UserBufferIterator) : Option (Option Nat × UserBufferIterator) :=
  match self.buffers[self.currentBuffer]? with
  | none => some (none, self)
  | some b =>
      if self.currentIdx < b.len then
        let r := b.addr + self.currentIdx
        if self.currentIdx + 1 = b.len then
          some (some r, { self with currentIdx := 0, currentBuffer := self.currentBuffer + 1 })
        else some (some r, { self with currentIdx := self.currentIdx + 1 })
      else none

/-- The addresses that at most `calls` calls of `next` return up to the first `None`. -/
def collect : Nat → UserBufferIterator → Option (List Nat)
  | 0, _ => none
  | calls + 1, it => do
      let (r, it) ← it.next
      match r with
      | none => some []
      | some r => (collect calls it).map (r :: ·)

/-- The addresses that the next `n` calls of `next` return, and the iterator after them. -/
def take : Nat → UserBufferIterator → Option (List Nat × UserBufferIterator)
  | 0, it => some ([], it)
  | n + 1, it => do
      let (r, it) ← it.next
      let r ← r
      let (rest, it) ← take n it
      some (r :: rest, it)

/-- The next byte lies in its slice. -/
def InBounds (self : UserBufferIterator) : Prop :=
  ∀ b, self.buffers[self.currentBuffer]? = some b → self.currentIdx < b.len

/-- The iterator has returned `n` bytes. -/
structure Position (it : UserBufferIterator) (n : Nat) : Prop where
  count : n = ((it.buffers.take it.currentBuffer).map Slice.len).sum + it.currentIdx
  inside : ∀ b, it.buffers[it.currentBuffer]? = some b → it.currentIdx ≤ b.len
  outside : it.buffers[it.currentBuffer]? = none → it.currentIdx = 0

end UserBufferIterator

theorem UserBuffer.len_eq (self : UserBuffer) : self.len = (self.buffers.map Slice.len).sum := by
  have hfold : ∀ (l : List Slice) (total : Nat),
      l.foldl (fun total b => total + b.len) total = total + (l.map Slice.len).sum := by
    intro l
    induction l with
    | nil => simp
    | cons b l ih =>
      intro total
      rw [foldl_cons, ih, map_cons, sum_cons]
      omega
  rw [len, hfold, Nat.zero_add]

theorem UserBuffer.position_intoIter (self : UserBuffer) : self.intoIter.Position 0 where
  count := by simp [intoIter]
  inside := fun _ _ => Nat.zero_le _
  outside := fun _ => rfl

theorem length_flatMap_addrs (l : List Slice) :
    (l.flatMap Slice.addrs).length = (l.map Slice.len).sum := by
  simp [length_flatMap, Slice.addrs]

theorem sum_take_succ {l : List Slice} {k : Nat} {b : Slice} (hb : l[k]? = some b) :
    ((l.take (k + 1)).map Slice.len).sum = ((l.take k).map Slice.len).sum + b.len := by
  rw [take_add_one, hb, map_append, sum_append, toList_some, map_singleton, sum_singleton]

theorem sum_take_le (l : List Slice) (k : Nat) :
    ((l.take k).map Slice.len).sum ≤ (l.map Slice.len).sum := by
  have hsplit := congrArg (fun l => (l.map Slice.len).sum) (List.take_append_drop k l)
  simp only [map_append, sum_append] at hsplit
  omega

namespace UserBufferIterator.Position

variable {it it' : UserBufferIterator} {n : Nat}

theorem next_some (h : it.Position n) {r : Nat} (hnext : it.next = some (some r, it')) :
    it'.Position (n + 1) ∧ it'.buffers = it.buffers := by
  have hcount := h.count
  unfold UserBufferIterator.next at hnext
  split at hnext
  · simp at hnext
  · rename_i b hb
    split at hnext
    · rename_i hlt
      dsimp only at hnext
      split at hnext
      · rename_i hlast
        simp only [Option.some.injEq, Prod.mk.injEq] at hnext
        obtain ⟨-, rfl⟩ := hnext
        refine ⟨⟨?_, fun _ _ => Nat.zero_le _, fun _ => rfl⟩, rfl⟩
        simp only
        rw [sum_take_succ hb]
        omega
      · simp only [Option.some.injEq, Prod.mk.injEq] at hnext
        obtain ⟨-, rfl⟩ := hnext
        refine ⟨⟨by simp only; omega, fun b' hb' => ?_, fun hnone => ?_⟩, rfl⟩
        · rw [hb, Option.some.injEq] at hb'
          subst hb'
          exact hlt
        · rw [hb] at hnone
          cases hnone
    · cases hnext

theorem next_none (h : it.Position n) (hnext : it.next = some (none, it')) :
    n = (UserBuffer.mk it.buffers).len := by
  unfold UserBufferIterator.next at hnext
  split at hnext
  · rename_i hb
    rw [h.count, h.outside hb, UserBuffer.len_eq, take_of_length_le, Nat.add_zero]
    exact getElem?_eq_none_iff.mp hb
  · split at hnext
    · dsimp only at hnext
      split at hnext <;> simp at hnext
    · cases hnext

theorem getElem?_addrs (h : it.Position n) {r : Nat} (hnext : it.next = some (some r, it')) :
    (it.buffers.flatMap Slice.addrs)[n]? = some r := by
  unfold UserBufferIterator.next at hnext
  split at hnext
  · simp at hnext
  · rename_i b hb
    split at hnext
    · rename_i hlt
      obtain rfl : b.addr + it.currentIdx = r := by
        dsimp only at hnext
        split at hnext <;> simp only [Option.some.injEq, Prod.mk.injEq] at hnext <;> exact hnext.1
      have hsplit : it.buffers =
          it.buffers.take it.currentBuffer ++ b :: it.buffers.drop (it.currentBuffer + 1) := by
        obtain ⟨hk, hget⟩ := List.getElem?_eq_some_iff.mp hb
        rw [← hget, List.getElem_cons_drop, List.take_append_drop]
      have hlength : ((it.buffers.take it.currentBuffer).flatMap Slice.addrs).length =
          ((it.buffers.take it.currentBuffer).map Slice.len).sum := length_flatMap_addrs _
      rw [hsplit, flatMap_append, flatMap_cons, h.count, ← hlength,
        getElem?_append_right (by omega), Nat.add_sub_cancel_left,
        getElem?_append_left (by simpa [Slice.addrs] using hlt)]
      simp [Slice.addrs, hlt]
    · cases hnext

theorem le_len (h : it.Position n) : n ≤ (UserBuffer.mk it.buffers).len := by
  rw [h.count, UserBuffer.len_eq]
  cases hb : it.buffers[it.currentBuffer]? with
  | none =>
    rw [h.outside hb]
    exact sum_take_le it.buffers it.currentBuffer
  | some b =>
    have hle := h.inside b hb
    have hsum := sum_take_le it.buffers (it.currentBuffer + 1)
    rw [sum_take_succ hb] at hsum
    exact (Nat.add_le_add_left hle _).trans hsum

end UserBufferIterator.Position

namespace UserBufferIterator

variable {it : UserBufferIterator} {n : Nat}

theorem take_succ_eq_some {k : Nat} {addrs : List Nat} {it' : UserBufferIterator} :
    it.take (k + 1) = some (addrs, it') ↔ ∃ r it₁ rest, it.next = some (some r, it₁) ∧
      it₁.take k = some (rest, it') ∧ addrs = r :: rest := by
  simp only [take, do_eq_some_iff, Option.some.injEq, Prod.mk.injEq, Prod.exists]
  constructor
  · rintro ⟨_, it₁, hnext, r, rfl, rest, _, hrest, rfl, rfl⟩
    exact ⟨r, it₁, rest, hnext, hrest, rfl⟩
  · rintro ⟨r, it₁, rest, hnext, hrest, rfl⟩
    exact ⟨some r, it₁, hnext, r, rfl, rest, it', hrest, rfl, rfl⟩

theorem Position.take (h : it.Position n) {k : Nat} {addrs : List Nat} {it' : UserBufferIterator}
    (htake : it.take k = some (addrs, it')) : it'.Position (n + k) ∧ it'.buffers = it.buffers ∧
      addrs = ((it.buffers.flatMap Slice.addrs).drop n).take k := by
  induction k generalizing it n addrs with
  | zero =>
    rw [UserBufferIterator.take, Option.some.injEq, Prod.mk.injEq] at htake
    obtain ⟨rfl, rfl⟩ := htake
    exact ⟨h, rfl, by rw [take_zero]⟩
  | succ k ih =>
    obtain ⟨r, it₁, rest, hnext, hrest, rfl⟩ := take_succ_eq_some.mp htake
    obtain ⟨h₁, hsame⟩ := h.next_some hnext
    obtain ⟨h', hsame', hrest'⟩ := ih h₁ hrest
    obtain ⟨hn, hr⟩ := List.getElem?_eq_some_iff.mp (h.getElem?_addrs hnext)
    refine ⟨?_, hsame'.trans hsame, ?_⟩
    · rwa [Nat.add_right_comm] at h'
    · rw [drop_eq_getElem_cons hn, hr, take_succ_cons, hrest', hsame]

theorem Position.next_of_lt (h : it.Position n) (hlt : n < (UserBuffer.mk it.buffers).len) :
    it.next = none ∨ ∃ r it', it.next = some (some r, it') := by
  cases hnext : it.next with
  | none => exact .inl rfl
  | some p =>
    obtain ⟨r, it'⟩ := p
    cases r with
    | none => exact absurd (h.next_none hnext) (Nat.ne_of_lt hlt)
    | some r => exact .inr ⟨r, it', rfl⟩

/-- All bytes that are left, and then `None`. -/
theorem Position.collect_eq_some (h : it.Position n) {k : Nat}
    (hk : n + k = (UserBuffer.mk it.buffers).len) {addrs : List Nat} :
    it.collect (k + 1) = some addrs ↔
      ∃ it' it'', it.take k = some (addrs, it') ∧ it'.next = some (none, it'') := by
  induction k generalizing it n addrs with
  | zero =>
    simp only [collect, UserBufferIterator.take, do_eq_some_iff, Option.some.injEq, Prod.mk.injEq,
      Prod.exists]
    constructor
    · rintro ⟨r, it', hnext, haddrs⟩
      cases r with
      | none =>
        cases haddrs
        exact ⟨it, it', ⟨rfl, rfl⟩, hnext⟩
      | some r => cases haddrs
    · rintro ⟨_, it'', ⟨rfl, rfl⟩, hnext⟩
      exact ⟨none, it'', hnext, rfl⟩
  | succ k ih =>
    constructor
    · intro hcollect
      rw [collect, do_eq_some_iff] at hcollect
      obtain ⟨⟨r, it₁⟩, hnext, hcollect⟩ := hcollect
      cases r with
      | none =>
        have hfull := h.next_none hnext
        omega
      | some r =>
        obtain ⟨h₁, hsame⟩ := h.next_some hnext
        simp only [map_eq_some_iff] at hcollect
        obtain ⟨rest, hrest, rfl⟩ := hcollect
        obtain ⟨it', it'', htake, hnone⟩ := (ih h₁ (by rw [hsame]; omega)).mp hrest
        exact ⟨it', it'', take_succ_eq_some.mpr ⟨r, it₁, rest, hnext, htake, rfl⟩, hnone⟩
    · rintro ⟨it', it'', htake, hnone⟩
      obtain ⟨r, it₁, rest, hnext, hrest, rfl⟩ := take_succ_eq_some.mp htake
      obtain ⟨h₁, hsame⟩ := h.next_some hnext
      have hcollect := (ih h₁ (by rw [hsame]; omega)).mpr ⟨it', it'', hrest, hnone⟩
      rw [collect, hnext]
      simp only [do_some, hcollect, map_some]

theorem InBounds.next (h : it.InBounds) (hslices : ∀ b ∈ it.buffers, 0 < b.len) :
    ∃ r it', it.next = some (r, it') ∧ it'.InBounds := by
  rw [UserBufferIterator.next]
  cases hb : it.buffers[it.currentBuffer]? with
  | none => exact ⟨none, it, rfl, h⟩
  | some b =>
    have hlt := h b hb
    simp only
    rw [if_pos hlt]
    by_cases hlast : it.currentIdx + 1 = b.len
    · rw [if_pos hlast]
      exact ⟨_, _, rfl, fun b' hb' => hslices b' (mem_of_getElem? hb')⟩
    · rw [if_neg hlast]
      refine ⟨_, _, rfl, fun b' hb' => ?_⟩
      rw [hb, Option.some.injEq] at hb'
      subst hb'
      simp only
      omega

theorem collect_eq (h : it.Position n) (hbounds : it.InBounds)
    (hslices : ∀ b ∈ it.buffers, 0 < b.len) {calls : Nat}
    (hcalls : (UserBuffer.mk it.buffers).len < n + calls) :
    it.collect calls = some ((it.buffers.flatMap Slice.addrs).drop n) := by
  induction calls generalizing it n with
  | zero =>
    have hle := h.le_len
    omega
  | succ calls ih =>
    obtain ⟨r, it', hnext, hbounds'⟩ := hbounds.next hslices
    simp only [collect, hnext, do_some]
    cases r with
    | none =>
      have hlength := length_flatMap_addrs it.buffers
      rw [drop_eq_nil_of_le]
      rw [hlength, h.next_none hnext, UserBuffer.len_eq]
    | some r =>
      obtain ⟨h', hsame⟩ := h.next_some hnext
      obtain ⟨hn, hr⟩ := List.getElem?_eq_some_iff.mp (h.getElem?_addrs hnext)
      rw [← hsame] at hslices hcalls
      rw [drop_eq_getElem_cons hn, hr]
      simp only [ih h' hbounds' hslices (by omega), hsame, map_some]

end UserBufferIterator

end RCore.Mm
