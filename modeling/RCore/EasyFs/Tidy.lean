import RCore.EasyFs.FileData

/-!
# Words that keep no block number

A word of an inode record or of an index block keeps the number of one position of the
block tree.  `Tidy` says that the words whose position is not in use are zero.  New index
blocks are zero and `clear_size` takes the numbers out of the record, so that growing and
clearing leave a tree tidy; and of a tidy tree, the numbers determine the record and every
index block.
-/

namespace RCore.EasyFs

open RCore.Lib.LockedStore DiskInode Block
open Slot

theorem DiskInode.field_withSize (d : DiskInode) (size : UInt32) {e : Nat} (he : e ≠ 0) :
    ({ d with size := size } : DiskInode).field e = d.field e := by
  rw [field, if_neg he, field, if_neg he]
  rfl

/-! ## What the numbers determine -/

section Determined

variable {d₁ d₂ : DiskInode} {blk₁ blk₂ : Nat → Block} {done : List Slot}
  (hids : ∀ s ∈ done, slotId d₁ blk₁ s = slotId d₂ blk₂ s)
include hids

theorem record_eq_of_ids
    (hfree : ∀ e < 31, (∀ s ∈ done, s.parent = none → s.entry ≠ e) → d₁.field e = d₂.field e)
    (htype : d₁.type_ = d₂.type_) : d₁ = d₂ := by
  apply ext_field _ htype
  intro e he
  by_cases hunused : ∀ s ∈ done, s.parent = none → s.entry ≠ e
  · exact hfree e he hunused
  · push Not at hunused
    obtain ⟨s, hs, hparent, rfl⟩ := hunused
    have hread₁ := (reads_slotId d₁ blk₁).of_root (s := s) hparent
    have hread₂ := (reads_slotId d₂ blk₂).of_root (s := s) hparent
    rw [shape_entry] at hread₁ hread₂
    rw [← hread₁, ← hread₂, hids s hs]

theorem indexBlock_eq_of_ids {p : Slot} (hp : p ∈ done)
    (hfree : ∀ e < 128, (∀ s ∈ done, s.parent = some p → s.entry ≠ e) →
      (blk₁ (slotId d₁ blk₁ p).toNat).word e = (blk₂ (slotId d₁ blk₁ p).toNat).word e) :
    blk₁ (slotId d₁ blk₁ p).toNat = blk₂ (slotId d₁ blk₁ p).toNat := by
  apply ext_word
  intro e he
  by_cases hunused : ∀ s ∈ done, s.parent = some p → s.entry ≠ e
  · exact hfree e he hunused
  · push Not at hunused
    obtain ⟨s, hs, hparent, rfl⟩ := hunused
    have hread₁ := (reads_slotId d₁ blk₁).of_cell (s := s) hparent
    have hread₂ := (reads_slotId d₂ blk₂).of_cell (s := s) hparent
    rw [← hids p hp] at hread₂
    rw [shape_entry] at hread₁ hread₂
    rw [← hread₁, ← hread₂, hids s hs]

end Determined

/-! ## Tidy trees -/

/-- In the tree of a file of `n` data blocks, the words of the record and of the index blocks
that keep no number are zero. -/
structure Tidy (d : DiskInode) (blk : Nat → Block) (n : Nat) : Prop where
  record : ∀ e, 0 < e → e < 31 → (∀ s : Slot, s.InUse n → s.parent = none → s.entry ≠ e) →
    d.field e = 0
  index : ∀ p : Slot, p.InUse n → p.isIndex = true → ∀ e < 128,
    (∀ s : Slot, s.InUse n → s.parent = some p → s.entry ≠ e) →
    (blk (slotId d blk p).toNat).word e = 0

namespace Tidy

variable {d d' : DiskInode} {blk blk' : Nat → Block} {m n : Nat}

theorem of_empty (h : ∀ e, 0 < e → e < 31 → d.field e = 0) : Tidy d blk 0 where
  record := fun e hpos he _ => h e hpos he
  index := by
    intro p hp
    cases p with
    | data j | indirect1 | indirect2 | sub a => exact absurd hp (Nat.not_lt_zero _)

theorem field_initial (type_ : DiskInodeType) {e : Nat} (he : 0 < e) (he' : e < 31) :
    (initial type_).field e = 0 := by
  rw [field, if_neg (by omega)]
  split
  · have hlt : e - 1 < inodeDirectCount := by
      rw [inodeDirectCount_eq]
      omega
    simp [directAt, initial, hlt]
  · split <;> rfl

theorem initial (type_ : DiskInodeType) (blk : Nat → Block) :
    Tidy (initial type_) blk 0 :=
  of_empty fun _ hpos he => field_initial type_ hpos he

theorem slotId_eq_zero (h : Tidy d blk n) {s : Slot} (hs : ¬s.InUse n)
    (hparent : ∀ p, s.parent = some p → p.InUse n ∧ s.entry < 128) : slotId d blk s = 0 := by
  -- the word is that of no other position
  have hunused : ∀ t : Slot, t.InUse n → t.parent = s.parent → t.entry ≠ s.entry := by
    intro t ht hp he
    exact hs (shape.place_inj hp he ▸ ht)
  cases hp : s.parent with
  | none =>
    obtain ⟨hpos, hlt⟩ := entry_bounds_of_root hp
    rw [(reads_slotId d blk).of_root (s := s) hp, shape_entry]
    exact h.record _ hpos hlt fun t ht htp => hunused t ht (htp.trans hp.symm)
  | some p =>
    obtain ⟨hin, hlt⟩ := hparent p hp
    rw [(reads_slotId d blk).of_cell (s := s) hp, shape_entry]
    exact h.index p hin (isIndex_of_parent hp) _ hlt fun t ht htp =>
      hunused t ht (htp.trans hp.symm)

/-- The record after `clear_size`. -/
theorem emptied (h : Tidy d blk n) (he : Emptied n d d') (blk' : Nat → Block) :
    Tidy d' blk' 0 := by
  apply of_empty
  intro e hpos hlt
  have hroot : ∀ s : Slot, s.parent = none → ¬s.InUse n → slotId d blk s = 0 :=
    fun s hp hs => h.slotId_eq_zero hs fun p hp' => absurd (hp.symm.trans hp') (by simp)
  rw [field, if_neg (by omega)]
  split
  · rename_i hle
    rw [he.direct (e - 1) (by omega)]
    split
    · rfl
    · rename_i hunused
      have hzero := hroot (data (e - 1)) (parent_data_direct (by omega)) hunused
      rw [slotId_data_direct d blk (by omega)] at hzero
      exact hzero
  · split
    · rw [he.indirect1]
      split
      · rfl
      · rename_i hunused
        exact hroot .indirect1 rfl hunused
    · rw [he.indirect2]
      split
      · rfl
      · rename_i hunused
        exact hroot .indirect2 rfl hunused

theorem congr (h : Tidy d blk n)
    (hblk : ∀ s : Slot, s.InUse n → s.isIndex = true →
      blk' (slotId d blk s).toNat = blk (slotId d blk s).toNat) : Tidy d blk' n where
  record := h.record
  index := by
    intro p hp hindex e he hunused
    rw [slotId_congr (fun _ _ _ => rfl) hblk hp, hblk p hp hindex]
    exact h.index p hp hindex e he hunused

/-- `increase_size` with zero blocks. -/
theorem grow {size : UInt32} {w : List UInt32} (h : Tidy d blk m) (hmn : m ≤ n)
    (hnd : (tree d blk m ++ w).Nodup) (hzero : ∀ id ∈ w, blk id.toNat = zero)
    (hgrow : GrowingFrom { d with size := size } blk (tree d blk m ++ w) d' blk' (slots n) []) :
    Tidy d' blk' n := by
  have htree := hgrow.tree_eq
  have hsub : ∀ s : Slot, s.InUse m → s.InUse n := by
    intro s hs
    obtain ⟨l, hl⟩ := slots_append hmn
    rw [← mem_slots, hl]
    exact List.mem_append_left _ (mem_slots.mpr hs)
  constructor
  · intro e hpos he hunused
    rw [hgrow.root_kept e he fun s hs => hunused s (mem_slots.mp hs),
      field_withSize d size (by omega)]
    exact h.record e hpos he fun s hs => hunused s (hsub s hs)
  · intro p hp hindex e he hunused
    rw [hgrow.cell_kept p (mem_slots.mpr hp) e he fun s hs => hunused s (mem_slots.mp hs)]
    by_cases hold : p.InUse m
    · rw [slotId_of_tree_append hmn htree hold]
      exact h.index p hold hindex e he fun s hs => hunused s (hsub s hs)
    · have hnew := slotId_mem_of_tree_append hmn htree (htree ▸ hnd) hp hold
      rw [hzero _ hnew]
      exact word_zero e

end Tidy

theorem tidy_unique {d₁ d₂ : DiskInode} {blk₁ blk₂ : Nat → Block} {n : Nat}
    (h₁ : Tidy d₁ blk₁ n) (h₂ : Tidy d₂ blk₂ n) (htree : tree d₁ blk₁ n = tree d₂ blk₂ n)
    (hsize : d₁.size = d₂.size) (htype : d₁.type_ = d₂.type_) :
    d₁ = d₂ ∧ ∀ s : Slot, s.InUse n → s.isIndex = true →
      blk₁ (slotId d₁ blk₁ s).toNat = blk₂ (slotId d₁ blk₁ s).toNat := by
  have hids : ∀ s ∈ slots n, slotId d₁ blk₁ s = slotId d₂ blk₂ s := List.map_inj_left.mp htree
  constructor
  · refine record_eq_of_ids hids ?_ htype
    intro e he hunused
    have hunused' : ∀ s : Slot, s.InUse n → s.parent = none → s.entry ≠ e :=
      fun s hs => hunused s (mem_slots.mpr hs)
    rcases Nat.eq_zero_or_pos e with rfl | hpos
    · exact hsize
    · rw [h₁.record e hpos he hunused', h₂.record e hpos he hunused']
  · intro p hp hindex
    refine indexBlock_eq_of_ids hids (mem_slots.mpr hp) ?_
    intro e he hunused
    have hunused' : ∀ s : Slot, s.InUse n → s.parent = some p → s.entry ≠ e :=
      fun s hs => hunused s (mem_slots.mpr hs)
    have hzero := h₂.index p hp hindex e he hunused'
    rw [← hids p (mem_slots.mpr hp)] at hzero
    rw [h₁.index p hp hindex e he hunused', hzero]

end RCore.EasyFs
