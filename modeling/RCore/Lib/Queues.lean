import Mathlib.Data.List.Basic

/-!
# Containers of queues

A list of records each of which holds a queue.  When one record changes, the
number of occurrences of an element over all queues changes by what the queue of
that record gains or loses.
-/

namespace RCore.Lib.Queues

open List

variable {α β : Type} [DecidableEq β]

theorem count_flatMap_set {l : List α} {i : Nat} {a : α} (h : l[i]? = some a) (a' : α)
    (f : α → List β) (x : β) :
    ((l.set i a').flatMap f).count x + (f a).count x =
      (l.flatMap f).count x + (f a').count x := by
  induction l generalizing i with
  | nil => simp at h
  | cons b l ih =>
    cases i with
    | zero =>
      simp only [getElem?_cons_zero, Option.some.injEq] at h
      subst h
      simp only [set_cons_zero, flatMap_cons, count_append]
      omega
    | succ i =>
      have hih := ih (by simpa using h)
      simp only [set_cons_succ, flatMap_cons, count_append]
      omega

theorem count_map_erase [DecidableEq α] {l : List α} {a : α} (h : a ∈ l) (f : α → β) (x : β) :
    ((l.erase a).map f).count x + (if f a = x then 1 else 0) = (l.map f).count x := by
  have hperm := ((perm_cons_erase h).map f).count_eq x
  rw [hperm, map_cons, count_cons]
  simp only [beq_iff_eq]

theorem exists_only_of_count_flatten {queues : List (List β)} {x : β}
    (h : queues.flatten.count x = 1) :
    ∃ (i : Nat) (queue : List β), queues[i]? = some queue ∧ queue.count x = 1 ∧
      ∀ (j : Nat) (other : List β), queues[j]? = some other → j ≠ i → x ∉ other := by
  induction queues with
  | nil => simp at h
  | cons queue queues ih =>
    rw [flatten_cons, count_append] at h
    by_cases hx : x ∈ queue
    · have hpos := count_pos_iff.mpr hx
      refine ⟨0, queue, rfl, by omega, fun j other hj hne hmem => ?_⟩
      obtain ⟨j, rfl⟩ := Nat.exists_eq_succ_of_ne_zero hne
      have hother : other ∈ queues := mem_of_getElem? (by simpa using hj)
      have hrest := count_pos_iff.mpr (mem_flatten.mpr ⟨other, hother, hmem⟩)
      omega
    · have hzero := count_eq_zero.mpr hx
      obtain ⟨i, found, hi, hcount, honly⟩ := ih (by omega)
      refine ⟨i + 1, found, by simpa using hi, hcount, fun j other hj hne => ?_⟩
      cases j with
      | zero =>
        obtain rfl : queue = other := by simpa using hj
        exact hx
      | succ j => exact honly j other (by simpa using hj) (by omega)

theorem eq_of_count_flatMap_le_one {l : List α} {f : α → List β} {x : β}
    (h : (l.flatMap f).count x ≤ 1) {i j : Nat} {a b : α} (hi : l[i]? = some a) (ha : x ∈ f a)
    (hj : l[j]? = some b) (hb : x ∈ f b) : i = j := by
  have hmem : x ∈ l.flatMap f := mem_flatMap.mpr ⟨a, mem_of_getElem? hi, ha⟩
  have hone : (l.map f).flatten.count x = 1 := by
    rw [← flatMap_def]
    have hpos := count_pos_iff.mpr hmem
    omega
  obtain ⟨k, _, _, _, honly⟩ := exists_only_of_count_flatten hone
  -- both indices are the one that holds `x`
  have hik : i = k := by
    by_contra hne
    exact honly i (f a) (by rw [getElem?_map, hi]; rfl) hne ha
  have hjk : j = k := by
    by_contra hne
    exact honly j (f b) (by rw [getElem?_map, hj]; rfl) hne hb
  rw [hik, hjk]

omit [DecidableEq β] in
theorem flatMap_modify_of_eq {f : α → α} {g : α → List β} (h : ∀ a, g (f a) = g a) (l : List α)
    (i : Nat) : (l.modify i f).flatMap g = l.flatMap g := by
  induction l generalizing i with
  | nil => simp
  | cons a l ih =>
    cases i with
    | zero => simp [h]
    | succ i => simp [ih]

end RCore.Lib.Queues
