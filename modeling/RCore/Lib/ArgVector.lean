import Mathlib.Logic.Function.Basic
import RCore.Lib.LittleEndian

/-!
# Argument vectors

Strings are pushed on a stack that grows downwards, each with a zero byte behind it, and
their addresses are stored in an array above the stack.  Memory is a function from
addresses to bytes, or what such a function shows of another one through a map of
addresses.
-/

namespace RCore.Lib.ArgVector

open RCore.Lib.LittleEndian Function List

abbrev Bytes := Nat → UInt8

/-! ## What a memory holds -/

def HoldsWord (m : Bytes) (a v : Nat) : Prop :=
  ∀ i < 8, m (a + i) = leByte v i

/-- Words one after the other. -/
def HoldsWords (m : Bytes) (a : Nat) (words : List Nat) : Prop :=
  ∀ i (h : i < words.length), HoldsWord m (a + 8 * i) words[i]

def HoldsBytes (m : Bytes) (p : Nat) (data : List UInt8) : Prop :=
  ∀ i (h : i < data.length), m (p + i) = data[i]

variable {m m' : Bytes} {a v p : Nat} {data : List UInt8}

theorem HoldsWord.congr (h : HoldsWord m a v) (hsame : ∀ i < 8, m' (a + i) = m (a + i)) :
    HoldsWord m' a v :=
  fun i hi => (hsame i hi).trans (h i hi)

theorem HoldsBytes.congr (h : HoldsBytes m p data)
    (hsame : ∀ i < data.length, m' (p + i) = m (p + i)) : HoldsBytes m' p data :=
  fun i hi => (hsame i hi).trans (h i hi)

theorem HoldsWord.value (h : HoldsWord m a v) (hv : v < 2 ^ 64) :
    leValue (fun i => m (a + i)) 8 = v := by
  rw [leValue_congr h]
  exact leValue_leByte hv

theorem HoldsWords.cons {words : List Nat} (h : HoldsWord m a v)
    (hrest : HoldsWords m (a + 8) words) : HoldsWords m a (v :: words) := by
  intro i hi
  cases i with
  | zero => exact h
  | succ i =>
    have hword := hrest i (Nat.lt_of_succ_lt_succ hi)
    rwa [(by omega : a + 8 + 8 * i = a + 8 * (i + 1))] at hword

theorem HoldsWords.concat {words : List Nat} (h : HoldsWords m a words)
    (hlast : HoldsWord m (a + 8 * words.length) v) : HoldsWords m a (words ++ [v]) := by
  intro i hi
  rw [length_append, length_singleton] at hi
  by_cases hlt : i < words.length
  · rw [getElem_append_left hlt]
    exact h i hlt
  · obtain rfl : i = words.length := by omega
    rw [getElem_concat_length rfl]
    exact hlast

theorem mapM_range {α : Type} (f : Nat → Option α) (values : List α)
    (h : ∀ i (hi : i < values.length), f i = some values[i]) :
    (List.range values.length).mapM f = some values := by
  induction values generalizing f with
  | nil => rfl
  | cons value values ih =>
    have hrest := ih (fun i => f (i + 1)) fun i hi => h (i + 1) (Nat.succ_lt_succ hi)
    have hfirst := h 0 (Nat.succ_pos _)
    rw [length_cons, range_succ_eq_map, mapM_cons, hfirst, mapM_map]
    change (((List.range values.length).mapM fun i => f (i + 1)).bind _) = _
    rw [hrest]
    rfl

/-! ## Writing -/

def putWord (m : Bytes) (a v : Nat) : Bytes := fun x =>
  if a ≤ x ∧ x < a + 8 then leByte v (x - a) else m x

def putBytes (m : Bytes) (p : Nat) : List UInt8 → Bytes
  | [] => m
  | c :: cs => putBytes (Function.update m p c) (p + 1) cs

theorem holdsWord_putWord (m : Bytes) (a v : Nat) : HoldsWord (putWord m a v) a v := by
  intro i hi
  rw [putWord, if_pos (by omega), Nat.add_sub_cancel_left]

theorem putWord_outside {x : Nat} (h : x < a ∨ a + 8 ≤ x) : putWord m a v x = m x := by
  rw [putWord, if_neg (by omega)]

theorem putBytes_outside {x : Nat} (h : x < p ∨ p + data.length ≤ x) :
    putBytes m p data x = m x := by
  induction data generalizing m p with
  | nil => rfl
  | cons c cs ih =>
    rw [length_cons] at h
    rw [putBytes, ih (by omega), update_of_ne (by omega)]

theorem holdsBytes_putBytes (m : Bytes) (p : Nat) (data : List UInt8) :
    HoldsBytes (putBytes m p data) p data := by
  induction data generalizing m p with
  | nil =>
    intro i hi
    simp at hi
  | cons c cs ih =>
    intro i hi
    cases i with
    | zero =>
      change putBytes (update m p c) (p + 1) cs p = c
      rw [putBytes_outside (by omega), update_self]
    | succ i =>
      have hrest := ih (update m p c) (p + 1) i (Nat.lt_of_succ_lt_succ hi)
      rw [Nat.add_assoc, Nat.add_comm 1] at hrest
      exact hrest

theorem putBytes_concat (m : Bytes) (p : Nat) (data : List UInt8) (c : UInt8) :
    putBytes m p (data ++ [c]) = update (putBytes m p data) (p + data.length) c := by
  induction data generalizing m p with
  | nil => rfl
  | cons d data ih =>
    rw [cons_append, putBytes, ih, putBytes, length_cons, Nat.add_assoc, Nat.add_comm 1]

/-! ## Pushing strings -/

/-- A range of addresses. -/
structure Block where
  start : Nat
  size : Nat

namespace Block

def Apart (b c : Block) : Prop :=
  b.start + b.size ≤ c.start ∨ c.start + c.size ≤ b.start

def Within (b : Block) (low high : Nat) : Prop :=
  low ≤ b.start ∧ b.start + b.size ≤ high

end Block

/-- The bytes that strings take, with their zeros. -/
def total (strings : List (List UInt8)) : Nat :=
  (strings.map fun string => string.length + 1).sum

/-- Where the strings start that are pushed from `sp` on. -/
def pointers : List (List UInt8) → Nat → List Nat
  | [], _ => []
  | string :: strings, sp =>
      (sp - (string.length + 1)) :: pointers strings (sp - (string.length + 1))

/-- The ranges of strings with their zeros. -/
def blocks (ptrs : List Nat) (strings : List (List UInt8)) : List Block :=
  List.zipWith (fun ptr string => ⟨ptr, string.length + 1⟩) ptrs strings

/-- Every string goes below the ones before it, and its address to the next slot. -/
def pushStrings : List (List UInt8) → Nat → Nat → Bytes → Bytes
  | [], _, _, m => m
  | string :: strings, slot, sp, m =>
      let sp := sp - (string.length + 1)
      pushStrings strings (slot + 8) sp (putBytes (putWord m slot sp) sp (string ++ [0]))

variable {string : List UInt8} {strings : List (List UInt8)} {slot sp : Nat}

theorem total_cons : total (string :: strings) = string.length + 1 + total strings := by
  rw [total, map_cons, sum_cons, total]

theorem length_pointers : (pointers strings sp).length = strings.length := by
  induction strings generalizing sp with
  | nil => rfl
  | cons string strings ih => rw [pointers, length_cons, ih, length_cons]

theorem blocks_within (h : total strings ≤ sp) :
    ∀ b ∈ blocks (pointers strings sp) strings, b.Within (sp - total strings) sp := by
  induction strings generalizing sp with
  | nil =>
    intro b hb
    simp [blocks, pointers] at hb
  | cons string strings ih =>
    rw [total_cons] at h ⊢
    rw [blocks, pointers, zipWith_cons_cons]
    intro b hb
    rcases mem_cons.mp hb with rfl | hb
    · constructor
      · simp only
        omega
      · simp only
        omega
    · obtain ⟨hlow, hhigh⟩ := ih (by omega) b hb
      exact ⟨by omega, by omega⟩

theorem blocks_apart (h : total strings ≤ sp) :
    (blocks (pointers strings sp) strings).Pairwise Block.Apart := by
  induction strings generalizing sp with
  | nil => exact Pairwise.nil
  | cons string strings ih =>
    rw [total_cons] at h
    rw [blocks, pointers, zipWith_cons_cons, pairwise_cons]
    refine ⟨fun b hb => .inr ?_, ih (by omega)⟩
    exact (blocks_within (by omega) b hb).2

theorem pointers_lt (h : sp < v) : ∀ ptr ∈ pointers strings sp, ptr < v := by
  induction strings generalizing sp with
  | nil =>
    intro ptr hptr
    simp [pointers] at hptr
  | cons string strings ih =>
    intro ptr hptr
    rcases mem_cons.mp hptr with rfl | hptr
    · omega
    · exact ih (by omega) ptr hptr

/-- The array holds the addresses of the strings, and nothing else has changed. -/
structure Pushed (strings : List (List UInt8)) (slot sp : Nat) (m m' : Bytes) : Prop where
  words : HoldsWords m' slot (pointers strings sp)
  texts : List.Forall₂ (fun ptr string => HoldsBytes m' ptr (string ++ [0]))
    (pointers strings sp) strings
  outside : ∀ x, x < sp - total strings ∨ (sp ≤ x ∧ x < slot) ∨ slot + 8 * strings.length ≤ x →
    m' x = m x

theorem pushStrings_pushed (slot sp : Nat) (m : Bytes) (htotal : total strings ≤ sp)
    (hslot : sp ≤ slot) : Pushed strings slot sp m (pushStrings strings slot sp m) := by
  induction strings generalizing slot sp m with
  | nil =>
    refine ⟨fun i hi => ?_, .nil, fun x hx => rfl⟩
    simp [pointers] at hi
  | cons string strings ih =>
    rw [total_cons] at htotal
    have hlength : (string ++ [0]).length = string.length + 1 := by simp
    obtain ⟨hwords, htexts, houtside⟩ := ih (slot + 8) (sp - (string.length + 1))
      (putBytes (putWord m slot (sp - (string.length + 1))) (sp - (string.length + 1))
        (string ++ [0])) (by omega) (by omega)
    rw [pushStrings]
    refine ⟨.cons ?_ hwords, .cons ?_ htexts, fun x hx => ?_⟩
    · -- the rest of the strings lies below, the rest of the array above
      refine (holdsWord_putWord m slot _).congr fun i hi => ?_
      rw [houtside _ (by omega), putBytes_outside (by omega)]
    · have hstring := holdsBytes_putBytes (putWord m slot (sp - (string.length + 1)))
        (sp - (string.length + 1)) (string ++ [0])
      exact hstring.congr fun i hi => houtside _ (by omega)
    · rw [total_cons, length_cons] at hx
      rw [houtside x (by omega), putBytes_outside (by omega), putWord_outside (by omega)]

/-! ## Through a map of addresses -/

section Shows

variable {phys : Nat → Nat} {low high : Nat} {bytes flat : Bytes}

/-- Between two addresses the bytes are those of the memory at the mapped addresses. -/
def Shows (phys : Nat → Nat) (low high : Nat) (bytes flat : Bytes) : Prop :=
  ∀ va, low ≤ va → va < high → bytes (phys va) = flat va

variable (hinj : ∀ va va', low ≤ va → va < high → low ≤ va' → va' < high →
  phys va = phys va' → va = va')
include hinj

theorem Shows.update (h : Shows phys low high bytes flat) {va : Nat} (hlow : low ≤ va)
    (hhigh : va < high) (c : UInt8) :
    Shows phys low high (update bytes (phys va) c) (update flat va c) := by
  intro x hxlow hxhigh
  by_cases heq : x = va
  · rw [heq, update_self, update_self]
  · have hne : phys x ≠ phys va := fun hphys => heq (hinj x va hxlow hxhigh hlow hhigh hphys)
    rw [update_of_ne heq, update_of_ne hne]
    exact h x hxlow hxhigh

theorem Shows.putWord (h : Shows phys low high bytes flat) {va : Nat} (hlow : low ≤ va)
    (hhigh : va + 8 ≤ high) (hword : ∀ i < 8, phys (va + i) = phys va + i) (v : Nat) :
    Shows phys low high (putWord bytes (phys va) v) (putWord flat va v) := by
  intro x hxlow hxhigh
  by_cases hin : va ≤ x ∧ x < va + 8
  · have hphys := hword (x - va) (by omega)
    rw [(by omega : va + (x - va) = x)] at hphys
    rw [ArgVector.putWord, ArgVector.putWord, if_pos hin, if_pos (by omega), hphys,
      Nat.add_sub_cancel_left]
  · have hout : phys x < phys va ∨ phys va + 8 ≤ phys x := by
      by_contra hbetween
      have hphys := hword (phys x - phys va) (by omega)
      rw [(by omega : phys va + (phys x - phys va) = phys x)] at hphys
      have heq := hinj _ x (by omega) (by omega) hxlow hxhigh hphys
      omega
    rw [putWord_outside hout, putWord_outside (by omega)]
    exact h x hxlow hxhigh

end Shows

end RCore.Lib.ArgVector
