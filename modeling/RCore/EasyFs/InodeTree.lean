import RCore.EasyFs.Records
import RCore.Lib.IndexTree
import Mathlib.Data.List.Flatten

/-!
# The block tree of an inode

The blocks of a file of `n` data blocks are the data blocks, the singly indirect
block, the doubly indirect block and the second-level index blocks below it.
`slots n` lists their positions in the order in which `increase_size` takes new
blocks and `clear_size` gives them back; `slotId` is the block number found at a
position.  `increase_size` with fresh blocks appends their numbers to the tree,
and `clear_size` returns exactly the numbers of the tree.
-/

namespace RCore.EasyFs

open RCore.Lib.LockedStore RCore.Lib.IndexTree List
open Prog (withModify withRead check)

variable {j n m : Nat} {d d' : DiskInode} {blk' : Nat → Block}

/-- A position in the block tree: data block `j`, the singly and the doubly indirect
block, and second-level index block `a`. -/
inductive Slot where
  | data (j : Nat)
  | indirect1
  | indirect2
  | sub (a : Nat)
  deriving DecidableEq

variable {s : Slot}

namespace Slot

/-- The index block that holds the number of a position; `none` for the inode itself. -/
def parent : Slot → Option Slot
  | data j =>
      if j < 28 then none else if j < 156 then some indirect1 else some (sub ((j - 156) / 128))
  | indirect1 => none
  | indirect2 => none
  | sub _ => some indirect2

/-- The entry of the index block, or the word of the inode record. -/
def entry : Slot → Nat
  | data j => if j < 28 then j + 1 else if j < 156 then j - 28 else (j - 156) % 128
  | indirect1 => 29
  | indirect2 => 30
  | sub a => a

def depth : Slot → Nat
  | data _ => 2
  | indirect1 => 0
  | indirect2 => 0
  | sub _ => 1

theorem parent_data_direct (hj : j < 28) : (data j).parent = none := if_pos hj

theorem parent_data_indirect1 (hj : 28 ≤ j) (hj' : j < 156) : (data j).parent = some indirect1 := by
  rw [parent, if_neg (by omega), if_pos hj']

theorem parent_data_indirect2 (hj : 156 ≤ j) : (data j).parent = some (sub ((j - 156) / 128)) := by
  rw [parent, if_neg (by omega), if_neg (by omega)]

/-- Where the numbers of the positions are kept. -/
def shape : Shape Slot where
  parent := parent
  entry := entry
  depth := depth
  depth_parent := by
    intro s p h
    cases s with
    | data j =>
        simp only [parent] at h
        split at h
        · contradiction
        · split at h <;> cases h <;> simp [depth]
    | indirect1 => contradiction
    | indirect2 => contradiction
    | sub a => cases h; simp [depth]
  place_inj := by
    intro s t hp he
    cases s <;> cases t <;> simp only [parent, entry] at hp he
    all_goals grind

@[simp] theorem shape_parent (s : Slot) : shape.parent s = s.parent := rfl

@[simp] theorem shape_entry (s : Slot) : shape.entry s = s.entry := rfl

/-- Index blocks are the positions other than data blocks. -/
def isIndex : Slot → Bool
  | data _ => false
  | _ => true

theorem isIndex_of_parent {p : Slot} (h : s.parent = some p) : p.isIndex = true := by
  cases s with
  | data j =>
    simp only [parent] at h
    split at h
    · contradiction
    · split at h <;> cases h <;> rfl
  | indirect1 => contradiction
  | indirect2 => contradiction
  | sub a => cases h; rfl

/-- The position belongs to the tree of a file of `n` data blocks. -/
def InUse (n : Nat) : Slot → Prop
  | data j => j < n
  | indirect1 => 28 < n
  | indirect2 => 156 < n
  | sub a => 156 + 128 * a < n

instance (n : Nat) (s : Slot) : Decidable (s.InUse n) := by
  cases s <;> unfold InUse <;> infer_instance

end Slot

open Slot

/-! ## Lists of positions -/

/-- Positions while only direct blocks are in use. -/
def directSlots (n : Nat) : List Slot := (List.range n).map data

/-- Positions once the singly indirect block is in place. -/
def indirect1Slots (n : Nat) : List Slot :=
  directSlots 28 ++ indirect1 :: (List.range' 28 (n - 28)).map data

/-- Data block `j` below the doubly indirect block, preceded by its index block when it
is the first below it. -/
def subSlots (j : Nat) : List Slot :=
  (if (j - 156) % 128 = 0 then [sub ((j - 156) / 128)] else []) ++ [data j]

/-- Positions once the doubly indirect block is in place. -/
def indirect2Slots (n : Nat) : List Slot :=
  indirect1Slots 156 ++ indirect2 :: (List.range' 156 (n - 156)).flatMap subSlots

/-- The positions of the tree of a file of `n` data blocks. -/
def slots (n : Nat) : List Slot :=
  if n ≤ 28 then directSlots n
  else if n ≤ 156 then indirect1Slots n
  else indirect2Slots n

theorem slots_of_le_28 (h : n ≤ 28) : slots n = directSlots n := if_pos h

theorem slots_of_le_156 (h : 28 < n) (h' : n ≤ 156) : slots n = indirect1Slots n := by
  rw [slots, if_neg (by omega), if_pos h']

theorem slots_of_gt_156 (h : 156 < n) : slots n = indirect2Slots n := by
  rw [slots, if_neg (by omega), if_neg (by omega)]

theorem directSlots_succ (n : Nat) : directSlots (n + 1) = directSlots n ++ [data n] := by
  simp [directSlots, range_succ]

theorem indirect1Slots_succ (h : 28 ≤ n) :
    indirect1Slots (n + 1) = indirect1Slots n ++ [data n] := by
  have hsub : n + 1 - 28 = (n - 28) + 1 := by omega
  have hlast : 28 + (n - 28) = n := by omega
  simp [indirect1Slots, hsub, range'_concat, hlast]

theorem indirect2Slots_succ (h : 156 ≤ n) :
    indirect2Slots (n + 1) = indirect2Slots n ++ subSlots n := by
  have hsub : n + 1 - 156 = (n - 156) + 1 := by omega
  have hlast : 156 + (n - 156) = n := by omega
  simp [indirect2Slots, hsub, range'_concat, hlast]

theorem indirect1Slots_28 : indirect1Slots 28 = directSlots 28 ++ [indirect1] := rfl

theorem indirect2Slots_156 : indirect2Slots 156 = indirect1Slots 156 ++ [indirect2] := rfl

theorem mem_directSlots : s ∈ directSlots n ↔ ∃ j < n, s = data j := by
  simp [directSlots, eq_comm]

theorem mem_indirect1Slots (h : 28 ≤ n) :
    s ∈ indirect1Slots n ↔ (∃ j < n, s = data j) ∨ s = indirect1 := by
  simp only [indirect1Slots, mem_append, mem_directSlots, mem_cons, mem_map, mem_range'_1]
  grind

theorem mem_subSlots :
    s ∈ subSlots j ↔ s = data j ∨ ((j - 156) % 128 = 0 ∧ s = sub ((j - 156) / 128)) := by
  unfold subSlots
  split <;> simp_all [or_comm]

theorem mem_indirect2Slots (h : 156 ≤ n) :
    s ∈ indirect2Slots n ↔ (∃ j < n, s = data j) ∨ s = indirect1 ∨ s = indirect2 ∨
      ∃ a, 156 + 128 * a < n ∧ s = sub a := by
  have h156 : 28 ≤ 156 := by omega
  simp only [indirect2Slots, mem_append, mem_indirect1Slots h156, mem_cons,
    mem_flatMap, mem_range'_1, mem_subSlots]
  constructor
  · rintro ((⟨j, hj, rfl⟩ | rfl) | rfl | ⟨j, hj, rfl | ⟨hmod, rfl⟩⟩)
    · exact Or.inl ⟨j, by omega, rfl⟩
    · exact Or.inr (Or.inl rfl)
    · exact Or.inr (Or.inr (Or.inl rfl))
    · exact Or.inl ⟨j, by omega, rfl⟩
    · exact Or.inr (Or.inr (Or.inr ⟨_, by omega, rfl⟩))
  · rintro (⟨j, hj, rfl⟩ | rfl | rfl | ⟨a, ha, rfl⟩)
    · by_cases hlt : j < 156
      · exact Or.inl (Or.inl ⟨j, hlt, rfl⟩)
      · exact Or.inr (Or.inr ⟨j, by omega, Or.inl rfl⟩)
    · exact Or.inl (Or.inr rfl)
    · exact Or.inr (Or.inl rfl)
    · have hdiv : (156 + 128 * a - 156) / 128 = a := by omega
      exact Or.inr (Or.inr ⟨156 + 128 * a, by omega, Or.inr ⟨by omega, by rw [hdiv]⟩⟩)

theorem mem_slots : s ∈ slots n ↔ s.InUse n := by
  by_cases h28 : n ≤ 28
  · rw [slots_of_le_28 h28, mem_directSlots]
    cases s <;> simp [InUse] <;> omega
  · by_cases h156 : n ≤ 156
    · rw [slots_of_le_156 (by omega) h156, mem_indirect1Slots (by omega)]
      cases s <;> simp [InUse] <;> omega
    · rw [slots_of_gt_156 (by omega), mem_indirect2Slots (by omega)]
      cases s <;> simp [InUse] <;> omega

/-- Number of blocks of a file of `n` data blocks, index blocks included. -/
def blockCount (n : Nat) : Nat :=
  n + (if 28 < n then 1 else 0) + (if 156 < n then 1 + (n - 156 + 127) / 128 else 0)

theorem length_flatMap_subSlots (m : Nat) :
    ((range' 156 m).flatMap subSlots).length = m + (m + 127) / 128 := by
  induction m with
  | zero => rfl
  | succ m ih =>
    have hsub : 156 + 1 * m - 156 = m := by omega
    rw [range'_concat, flatMap_append, length_append, ih, flatMap_singleton, subSlots, hsub]
    split <;> simp <;> omega

theorem length_indirect1Slots (h : 28 ≤ n) : (indirect1Slots n).length = n + 1 := by
  simp only [indirect1Slots, directSlots, length_append, length_map, length_range,
    length_cons, length_range']
  omega

theorem length_indirect2Slots (m : Nat) :
    (indirect2Slots (156 + m)).length = 158 + m + (m + 127) / 128 := by
  rw [indirect2Slots, length_append, length_cons, Nat.add_sub_cancel_left,
    length_flatMap_subSlots, length_indirect1Slots (by omega)]
  omega

theorem length_slots (n : Nat) : (slots n).length = blockCount n := by
  unfold blockCount
  by_cases h28 : n ≤ 28
  · rw [slots_of_le_28 h28, if_neg (by omega), if_neg (by omega)]
    simp [directSlots]
  · by_cases h156 : n ≤ 156
    · rw [slots_of_le_156 (by omega) h156, length_indirect1Slots (by omega), if_pos (by omega),
        if_neg (by omega)]
    · obtain ⟨m, rfl⟩ : ∃ m, n = 156 + m := ⟨n - 156, by omega⟩
      rw [slots_of_gt_156 (by omega), if_pos (by omega), if_pos (by omega), length_indirect2Slots]
      omega

theorem blockCount_mono (h : m ≤ n) : blockCount m ≤ blockCount n := by
  unfold blockCount
  split <;> split <;> split <;> split <;> omega

theorem slots_succ (n : Nat) : ∃ l, slots (n + 1) = slots n ++ l := by
  rcases Nat.lt_trichotomy n 28 with h28 | rfl | h28
  · rw [slots_of_le_28 h28, slots_of_le_28 (by omega), directSlots_succ]
    exact ⟨_, rfl⟩
  · rw [slots_of_le_28 (Nat.le_refl 28), slots_of_le_156 (by omega) (by omega),
      indirect1Slots_succ (Nat.le_refl 28), indirect1Slots_28, append_assoc]
    exact ⟨_, rfl⟩
  · rcases Nat.lt_trichotomy n 156 with h156 | rfl | h156
    · rw [slots_of_le_156 h28 (by omega), slots_of_le_156 (by omega) h156,
        indirect1Slots_succ (by omega)]
      exact ⟨_, rfl⟩
    · rw [slots_of_le_156 (by omega) (Nat.le_refl 156), slots_of_gt_156 (by omega),
        indirect2Slots_succ (Nat.le_refl 156), indirect2Slots_156, append_assoc]
      exact ⟨_, rfl⟩
    · rw [slots_of_gt_156 h156, slots_of_gt_156 (by omega), indirect2Slots_succ (by omega)]
      exact ⟨_, rfl⟩

theorem slots_append (h : m ≤ n) : ∃ l, slots n = slots m ++ l := by
  induction n, h using Nat.le_induction with
  | base => exact ⟨[], (append_nil _).symm⟩
  | succ n _ ih =>
    obtain ⟨l, hl⟩ := ih
    obtain ⟨l', hl'⟩ := slots_succ n
    exact ⟨l ++ l', by rw [hl', hl, append_assoc]⟩

theorem closed_slots (n : Nat) : shape.Closed (slots n) := by
  intro s hs p hp
  rw [mem_slots] at hs ⊢
  cases s with
  | data j =>
    have hj : j < n := hs
    by_cases h28 : j < 28
    · exact absurd (hp.symm.trans (parent_data_direct h28)) (by simp)
    · by_cases h156 : j < 156
      · cases hp.symm.trans (parent_data_indirect1 (by omega) h156)
        change 28 < n
        omega
      · cases hp.symm.trans (parent_data_indirect2 (j := j) (by omega))
        change 156 + 128 * ((j - 156) / 128) < n
        omega
  | indirect1 => contradiction
  | indirect2 => contradiction
  | sub a =>
    cases hp
    have ha : 156 + 128 * a < n := hs
    change 156 < n
    omega

theorem entry_lt_of_inUse (hn : n ≤ 16540) {p : Slot} (hs : s.InUse n) (hp : s.parent = some p) :
    s.entry < 128 := by
  cases s with
  | data j =>
    simp only [parent] at hp
    simp only [entry]
    split
    · simp_all
    · split <;> omega
  | indirect1 => contradiction
  | indirect2 => contradiction
  | sub a =>
    have ha : 156 + 128 * a < n := hs
    change a < 128
    omega

theorem entry_bounds_of_root (hs : s.parent = none) : 0 < s.entry ∧ s.entry < 31 := by
  cases s with
  | data j =>
    have hj : j < 28 := by
      simp only [parent] at hs
      split at hs
      · assumption
      · split at hs <;> contradiction
    rw [entry, if_pos hj]
    omega
  | indirect1 => simp [entry]
  | indirect2 => simp [entry]
  | sub a => contradiction

/-! ## Block numbers -/

/-- The block number at a position, as `get_block_id` finds it. -/
def slotId (d : DiskInode) (blk : Nat → Block) : Slot → UInt32
  | data j =>
      if j < 28 then d.directAt j
      else if j < 156 then (blk d.indirect1.toNat).word (j - 28)
      else (blk ((blk d.indirect2.toNat).word ((j - 156) / 128)).toNat).word ((j - 156) % 128)
  | indirect1 => d.indirect1
  | indirect2 => d.indirect2
  | sub a => (blk d.indirect2.toNat).word a

/-- The block numbers of a tree of `n` data blocks. -/
def tree (d : DiskInode) (blk : Nat → Block) (n : Nat) : List UInt32 :=
  (slots n).map (slotId d blk)

theorem slotId_data_direct (d : DiskInode) (blk : Nat → Block) (hj : j < 28) :
    slotId d blk (data j) = d.directAt j := if_pos hj

theorem slotId_data_indirect1 (d : DiskInode) (blk : Nat → Block) (hj : 28 ≤ j) (hj' : j < 156) :
    slotId d blk (data j) = (blk d.indirect1.toNat).word (j - 28) := by
  rw [slotId, if_neg (by omega), if_pos hj']

theorem slotId_data_indirect2 (d : DiskInode) (blk : Nat → Block) (hj : 156 ≤ j) :
    slotId d blk (data j) =
      (blk (slotId d blk (sub ((j - 156) / 128))).toNat).word ((j - 156) % 128) := by
  rw [slotId, if_neg (by omega), if_neg (by omega)]
  rfl

theorem reads_slotId (d : DiskInode) (blk : Nat → Block) :
    shape.Reads d.field (fun id e => (blk id.toNat).word e) (slotId d blk) := by
  intro s
  cases s with
  | data j =>
    by_cases h28 : j < 28
    · have hle : j + 1 ≤ 28 := h28
      simp [parent_data_direct h28, slotId_data_direct d blk h28, entry, h28, DiskInode.field, hle]
    · by_cases h156 : j < 156
      · have hge : 28 ≤ j := by omega
        simp only [shape_parent, parent_data_indirect1 hge h156, shape_entry, entry, if_neg h28,
          if_pos h156]
        exact slotId_data_indirect1 d blk hge h156
      · have hge : 156 ≤ j := by omega
        simp only [shape_parent, parent_data_indirect2 hge, shape_entry, entry, if_neg h28,
          if_neg h156]
        exact slotId_data_indirect2 d blk hge
  | indirect1 => rfl
  | indirect2 => rfl
  | sub a => rfl

variable {blk : Nat → Block}

theorem slotId_congr (hd : ∀ e, 0 < e → e < 31 → d'.field e = d.field e) (hblk : ∀ s, s.InUse n →
      s.isIndex = true → blk' (slotId d blk s).toNat = blk (slotId d blk s).toNat)
    (hs : s.InUse n) : slotId d' blk' s = slotId d blk s := by
  apply (reads_slotId d blk).eq_of_agree (reads_slotId d' blk') (closed_slots n)
  · intro t _ hp
    have hentry := entry_bounds_of_root hp
    exact hd _ hentry.1 hentry.2
  · intro t ht p hp
    have hpmem := mem_slots.mp (closed_slots n t ht p hp)
    rw [hblk p hpmem (isIndex_of_parent hp)]
  · exact mem_slots.mpr hs

theorem tree_congr (hd : ∀ e, 0 < e → e < 31 → d'.field e = d.field e)
    (hblk : ∀ id ∈ tree d blk n, blk' id.toNat = blk id.toNat) : tree d' blk' n = tree d blk n := by
  apply map_congr_left
  intro s hs
  refine slotId_congr hd (fun t ht _ => hblk _ ?_) (mem_slots.mp hs)
  exact mem_map_of_mem (mem_slots.mpr ht)

theorem slotId_mem_tree (hs : s.InUse n) : slotId d blk s ∈ tree d blk n :=
  mem_map_of_mem (mem_slots.mpr hs)

theorem slotId_inj (hnd : (tree d blk n).Nodup) {t : Slot} (hs : s.InUse n) (ht : t.InUse n)
    (h : slotId d blk s = slotId d blk t) : s = t :=
  inj_on_of_nodup_map hnd (mem_slots.mpr hs) (mem_slots.mpr ht) h

theorem slotId_of_tree_append {w : List UInt32} (hmn : m ≤ n)
    (h : tree d' blk' n = tree d blk m ++ w) (hs : s.InUse m) :
    slotId d' blk' s = slotId d blk s := by
  obtain ⟨l, hl⟩ := slots_append hmn
  rw [tree, hl, map_append] at h
  have hmap := (append_inj h (by simp [tree])).1
  exact map_inj_left.mp hmap s (mem_slots.mpr hs)

theorem slotId_mem_of_tree_append {w : List UInt32} (hmn : m ≤ n)
    (h : tree d' blk' n = tree d blk m ++ w) (hnd : (tree d' blk' n).Nodup) (hs : s.InUse n)
    (hnot : ¬s.InUse m) : slotId d' blk' s ∈ w := by
  have hin : slotId d' blk' s ∈ tree d' blk' n := slotId_mem_tree hs
  rw [h, mem_append] at hin
  refine hin.resolve_left fun hin => hnot ?_
  obtain ⟨t, ht, hts⟩ := mem_map.mp hin
  obtain ⟨l, hl⟩ := slots_append hmn
  have ht' : t ∈ slots n := by
    rw [hl]
    exact mem_append_left _ ht
  rw [mem_slots] at ht ht'
  rw [← slotId_of_tree_append hmn h ht] at hts
  rw [← slotId_inj hnd ht' hs hts]
  exact ht

section Run

variable {cap : Nat} {ro : Bool} {blk : Nat → Block} {held : List Nat}

/-- `get_block_id` returns the number of the data block. -/
theorem run_getBlockId (d : DiskInode) (hn : n ≤ 16540) (hj : j < n)
    (hheld : ∀ id ∈ tree d blk n, id.toNat ∉ held) (hcap : held.length < cap) :
    (d.getBlockId j).run cap ro ⟨blk, held⟩ = some (slotId d blk (data j), ⟨blk, held⟩) := by
  have hfree : ∀ s : Slot, s.InUse n → (slotId d blk s).toNat ∉ held :=
    fun s hs => hheld _ (slotId_mem_tree hs)
  rw [DiskInode.getBlockId, inodeDirectCount_eq, indirect1Bound_eq, inodeIndirect1Count_eq]
  by_cases h28 : j < 28
  · rw [if_pos h28, slotId_data_direct d blk h28]
    rfl
  · rw [if_neg h28]
    by_cases h156 : j < 156
    · rw [if_pos h156, slotId_data_indirect1 d blk (by omega) h156]
      exact Prog.run_withRead (hfree .indirect1 (show 28 < n by omega)) hcap rfl
    · rw [if_neg h156, slotId_data_indirect2 d blk (by omega)]
      have hindex : decide ((j - 156) / 128 < 128) = true := by
        simp only [decide_eq_true_eq]
        omega
      have hsub : (sub ((j - 156) / 128)).InUse n := by
        change 156 + 128 * ((j - 156) / 128) < n
        omega
      have hfirst : (withRead d.indirect2.toNat fun indirect2 => do
          check ((j - 156) / 128 < 128)
          pure (indirect2.word ((j - 156) / 128)) : FsProg UInt32).run cap ro ⟨blk, held⟩ =
          some (slotId d blk (sub ((j - 156) / 128)), ⟨blk, held⟩) := by
        apply Prog.run_withRead (hfree .indirect2 (show 156 < n by omega)) hcap
        rw [hindex, Prog.run_bind_some (Prog.run_check_true _)]
        rfl
      refine (Prog.run_bind_some hfirst).trans ?_
      exact Prog.run_withRead (hfree _ hsub) hcap rfl

end Run

end RCore.EasyFs
