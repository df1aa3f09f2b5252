import RCore.EasyFs.InodeTree

/-!
# Clearing the block tree

`clear_size` walks the tree in the order in which it was built and returns the
numbers of all its blocks.  No block is changed; the index blocks are reset later,
when they are deallocated.
-/

namespace RCore.EasyFs

open RCore.Lib.LockedStore Function List DiskInode
open Prog (withModify check)
open Slot

variable {b n : Nat}

/-! ## Second-level index blocks -/

/-- The data blocks `j, …` below index block `a` are listed after it. -/
theorem flatMap_subSlots_of_sub (a : Nat) (hb : b ≤ 128) :
    (range' (156 + 128 * a) b).flatMap subSlots =
      if b = 0 then [] else sub a :: (List.range b).map fun k => data (156 + 128 * a + k) := by
  induction b with
  | zero => rfl
  | succ b ih =>
    have hj : 156 + 128 * a + 1 * b - 156 = 128 * a + b := by omega
    rw [range'_concat, flatMap_append, ih (by omega), flatMap_singleton, subSlots,
      hj, if_neg (Nat.succ_ne_zero b)]
    by_cases h0 : b = 0
    · subst h0
      have hdiv : (128 * a + 0) / 128 = a := by omega
      have hmod : (128 * a + 0) % 128 = 0 := by omega
      rw [if_pos rfl, if_pos hmod, hdiv]
      rfl
    · have hmod : (128 * a + b) % 128 ≠ 0 := by omega
      rw [if_neg h0, if_neg hmod, range_succ]
      simp

theorem flatMap_subSlots_grouped (a : Nat) :
    (range' 156 (128 * a)).flatMap subSlots =
      (List.range a).flatMap fun a => sub a :: (List.range 128).map fun k =>
        data (156 + 128 * a + k) := by
  induction a with
  | zero => simp
  | succ a ih =>
    have hsplit : range' 156 (128 * (a + 1)) =
        range' 156 (128 * a) ++ range' (156 + 128 * a) 128 := by
      rw [Nat.mul_succ, range'_append_1]
    have hsub := flatMap_subSlots_of_sub a (b := 128) (by omega)
    have hrange : List.range (a + 1) = List.range a ++ [a] := range_succ
    rw [if_neg (by omega)] at hsub
    rw [hsplit, flatMap_append, ih, hsub, hrange, flatMap_append, flatMap_singleton]

theorem range'_flatMap_subSlots (a : Nat) (hb : b ≤ 128) :
    (range' 156 (128 * a + b)).flatMap subSlots =
      ((List.range a).flatMap fun a => sub a :: (List.range 128).map fun k =>
        data (156 + 128 * a + k)) ++
      if b = 0 then [] else sub a :: (List.range b).map fun k => data (156 + 128 * a + k) := by
  rw [← flatMap_subSlots_grouped, ← flatMap_subSlots_of_sub a hb, ← flatMap_append, range'_append_1]

/-! ## The numbers by region -/

variable {d : DiskInode} {blk : Nat → Block}

theorem map_slotId_directSlots (hn : n ≤ 28) :
    (directSlots n).map (slotId d blk) = (List.range n).map d.directAt := by
  rw [directSlots, map_map]
  apply map_congr_left
  intro j hj
  rw [mem_range] at hj
  exact slotId_data_direct d blk (by omega)

theorem map_slotId_indirect1Slots (hn : 28 ≤ n) (hn' : n ≤ 156) :
    (indirect1Slots n).map (slotId d blk) = (List.range 28).map d.directAt ++ d.indirect1 ::
      (List.range (n - 28)).map (blk d.indirect1.toNat).word := by
  have hdata : (range' 28 (n - 28)).map (fun j => slotId d blk (data j)) =
      (List.range (n - 28)).map (blk d.indirect1.toNat).word := by
    rw [range'_eq_map_range, map_map]
    apply map_congr_left
    intro k hk
    rw [mem_range] at hk
    have hsub : 28 + k - 28 = k := by omega
    rw [Function.comp_apply, slotId_data_indirect1 d blk (by omega) (by omega), hsub]
  rw [indirect1Slots, map_append, map_slotId_directSlots (by omega), map_cons, map_map]
  exact congrArg (fun l => (List.range 28).map d.directAt ++ d.indirect1 :: l) hdata

/-- The numbers of the first `b` data blocks below index block `a`. -/
theorem map_slotId_sub (a : Nat) (hb : b ≤ 128) :
    (List.range b).map (fun k => slotId d blk (data (156 + 128 * a + k))) =
      (List.range b).map (blk (slotId d blk (sub a)).toNat).word := by
  apply map_congr_left
  intro k hk
  rw [mem_range] at hk
  have hdiv : (156 + 128 * a + k - 156) / 128 = a := by omega
  have hmod : (156 + 128 * a + k - 156) % 128 = k := by omega
  rw [slotId_data_indirect2 d blk (by omega), hdiv, hmod]

theorem map_slotId_indirect2Slots (a : Nat) (hb : b ≤ 128) :
    (indirect2Slots (156 + (128 * a + b))).map (slotId d blk) =
      (indirect1Slots 156).map (slotId d blk) ++ d.indirect2 ::
        ((List.range a).flatMap fun a => slotId d blk (sub a) ::
          (List.range 128).map (blk (slotId d blk (sub a)).toNat).word) ++
        if b = 0 then [] else slotId d blk (sub a) ::
          (List.range b).map (blk (slotId d blk (sub a)).toNat).word := by
  have hfull : ∀ a, (sub a :: (List.range 128).map fun k => data (156 + 128 * a + k)).map
      (slotId d blk) = slotId d blk (sub a) ::
        (List.range 128).map (blk (slotId d blk (sub a)).toNat).word := by
    intro a
    rw [map_cons, map_map, ← map_slotId_sub a (Nat.le_refl 128)]
    rfl
  rw [indirect2Slots, Nat.add_sub_cancel_left, range'_flatMap_subSlots a hb]
  simp only [map_append, map_cons, map_flatMap, hfull]
  split
  · simp [slotId]
  · rw [map_cons, map_map, ← map_slotId_sub a hb]
    simp [slotId, Function.comp_def]

/-! ## `clear_size` -/

/-- What `clear_size` leaves of the record. -/
structure Cleared (d d' : DiskInode) : Prop where
  size : d'.size = d.size
  indirect1 : d'.indirect1 = d.indirect1
  indirect2 : d'.indirect2 = d.indirect2
  type_ : d'.type_ = d.type_

theorem clearDirect_spec (d : DiskInode) (hn : n ≤ 28) :
    (d.clearDirect n).1 = (List.range n).map d.directAt ∧ Cleared d (d.clearDirect n).2 ∧
      ∀ j < 28, (d.clearDirect n).2.directAt j = if j < n then 0 else d.directAt j := by
  induction n with
  | zero => exact ⟨rfl, ⟨rfl, rfl, rfl, rfl⟩, fun _ _ => rfl⟩
  | succ n ih =>
    obtain ⟨hids, hrec, hdirect⟩ := ih (by omega)
    refine ⟨?_, ⟨hrec.size, hrec.indirect1, hrec.indirect2, hrec.type_⟩, ?_⟩
    · have hlast := hdirect n (by omega)
      rw [if_neg (by omega)] at hlast
      simp only [clearDirect, hids, hlast, range_succ, map_append, map_cons, map_nil]
    · intro j hj
      have hlt : j < inodeDirectCount := hj
      by_cases hnj : n = j
      · rw [if_pos (by omega), hnj]
        simp [clearDirect, directAt, hlt]
      · have hiff : j < n + 1 ↔ j < n := by omega
        simp only [hiff, ← hdirect j hj]
        simp [clearDirect, directAt, hnj]

/-- The record without the positions of `n` data blocks. -/
structure Emptied (n : Nat) (d d' : DiskInode) : Prop where
  size : d'.size = 0
  direct : ∀ j < 28, d'.directAt j = if j < n then 0 else d.directAt j
  indirect1 : d'.indirect1 = if 28 < n then 0 else d.indirect1
  indirect2 : d'.indirect2 = if 156 < n then 0 else d.indirect2
  type_ : d'.type_ = d.type_

section Run

variable {cap : Nat} {ro : Bool} {held : List Nat}

theorem run_withModify_same {α : Type} {id : Nat} {f : Block → α} (hid : id ∉ held)
    (hcap : held.length < cap) :
    (withModify id fun b => pure (f b, b) : FsProg α).run cap ro ⟨blk, held⟩ =
      some (f (blk id), ⟨blk, held⟩) := by
  have hrun : (withModify id fun b => pure (f b, b) : FsProg α).run cap ro ⟨blk, held⟩ =
      some (f (blk id), ⟨update blk id (blk id), held⟩) :=
    Prog.run_withModify hid hcap rfl (fun _ => rfl)
  rw [update_eq_self] at hrun
  exact hrun

theorem run_clearFull {indirect2 : Block} (l : List Nat) (v : List UInt32)
    (hfree : ∀ a ∈ l, (indirect2.word a).toNat ∉ held) (hcap : held.length < cap) :
    (clearFull indirect2 l v).run cap ro ⟨blk, held⟩ =
      some (v ++ l.flatMap fun a => indirect2.word a ::
        (List.range 128).map (blk (indirect2.word a).toNat).word, ⟨blk, held⟩) := by
  induction l generalizing v with
  | nil => simp [clearFull]
  | cons a l ih =>
    rw [forall_mem_cons] at hfree
    rw [clearFull, Prog.run_bind_some (run_withModify_same hfree.1 hcap), ih _ hfree.2]
    simp [inodeIndirect1Count_eq]

theorem clearIndirect2_eq (d : DiskInode) (m : Nat) (v : List UInt32) :
    d.clearIndirect2 m v = (do
      check (decide (m - 128 ≤ 16384))
      let v ← withModify d.indirect2.toNat fun indirect2 => do
        let w ← clearFull indirect2 (List.range (min ((m - 128) / 128) 128))
          (v ++ [d.indirect2])
        if (m - 128) % 128 > 0 then do
          check (decide ((m - 128) / 128 < 128))
          let w ← withModify (indirect2.word ((m - 128) / 128)).toNat fun indirect1 =>
            pure (w ++ [indirect2.word ((m - 128) / 128)] ++
              (List.range ((m - 128) % 128)).map indirect1.word, indirect1)
          pure (w, indirect2)
        else pure (w, indirect2)
      pure (v, { d with indirect2 := 0 })) := rfl

/-- The part of `clear_size` below the doubly indirect block. -/
theorem run_clearIndirect2 {a : Nat} (hb : b < 128) (hbound : 128 * a + b ≤ 16384)
    (hpos : 0 < 128 * a + b) (hnd : (tree d blk (156 + (128 * a + b))).Nodup)
    (hheld : ∀ id ∈ tree d blk (156 + (128 * a + b)), id.toNat ∉ held)
    (hcap : held.length + 1 < cap) {d' : DiskInode} (hd' : d'.indirect2 = d.indirect2) :
    (d'.clearIndirect2 (128 + (128 * a + b)) ((indirect1Slots 156).map (slotId d blk))).run
      cap ro ⟨blk, held⟩ =
      some ((tree d blk (156 + (128 * a + b)), { d' with indirect2 := 0 }), ⟨blk, held⟩) := by
  have hm : 128 + (128 * a + b) - 128 = 128 * a + b := by omega
  have hdiv : (128 * a + b) / 128 = a := by omega
  have hmod : (128 * a + b) % 128 = b := by omega
  have hmin : min a 128 = a := by omega
  have hbound' : decide (128 * a + b ≤ 16384) = true := by simpa using hbound
  -- the index blocks are free to be taken while the doubly indirect block is held
  have hfree : ∀ s : Slot, s.InUse (156 + (128 * a + b)) → s ≠ .indirect2 →
      (slotId d blk s).toNat ∉ d.indirect2.toNat :: held := by
    intro s hs hne
    rw [mem_cons, not_or]
    refine ⟨fun he => hne ?_, hheld _ (slotId_mem_tree hs)⟩
    exact slotId_inj hnd hs (show 156 < _ by omega) (UInt32.toNat_inj.mp he)
  have hfull : (clearFull (blk d.indirect2.toNat) (List.range a)
      ((indirect1Slots 156).map (slotId d blk) ++ [d.indirect2])).run cap ro
      ⟨blk, d.indirect2.toNat :: held⟩ = _ :=
    run_clearFull (List.range a) ((indirect1Slots 156).map (slotId d blk) ++ [d.indirect2])
      (fun k hk => hfree (sub k) (by
        rw [mem_range] at hk
        change 156 + 128 * k < _
        omega) (by simp)) (by simpa using hcap)
  have htree : tree d blk (156 + (128 * a + b)) =
      (indirect2Slots (156 + (128 * a + b))).map (slotId d blk) := by
    rw [tree, slots_of_gt_156 (by omega)]
  rw [clearIndirect2_eq, hm, hdiv, hmod, hmin, hbound', hd',
    Prog.run_bind_some (Prog.run_check_true _)]
  have hbody : (withModify d.indirect2.toNat fun indirect2 => do
      let w ← clearFull indirect2 (List.range a)
        ((indirect1Slots 156).map (slotId d blk) ++ [d.indirect2])
      if b > 0 then do
        check (decide (a < 128))
        let w ← withModify (indirect2.word a).toNat fun indirect1 =>
          pure (w ++ [indirect2.word a] ++ (List.range b).map indirect1.word, indirect1)
        pure (w, indirect2)
      else pure (w, indirect2) : FsProg (List UInt32)).run cap ro ⟨blk, held⟩ =
      some (tree d blk (156 + (128 * a + b)),
        ⟨update blk d.indirect2.toNat (blk d.indirect2.toNat), held⟩) := by
    refine Prog.run_withModify (hheld _ (slotId_mem_tree (s := .indirect2) (show 156 < _ by omega)))
      (by omega) ?_ (fun _ => rfl)
    rw [Prog.run_bind_some hfull, htree, map_slotId_indirect2Slots a (by omega)]
    by_cases hb0 : b = 0
    · subst hb0
      rw [if_neg (by omega), if_pos rfl]
      simp [slotId]
    · have ha : decide (a < 128) = true := by
        rw [decide_eq_true_eq]
        omega
      have hsub : ((blk d.indirect2.toNat).word a).toNat ∉ d.indirect2.toNat :: held :=
        hfree (sub a) (show 156 + 128 * a < _ by omega) (by simp)
      rw [if_pos (by omega), if_neg hb0, ha, Prog.run_bind_some (Prog.run_check_true _),
        Prog.run_bind_some (run_withModify_same hsub (by simpa using hcap))]
      simp [slotId]
  rw [update_eq_self] at hbody
  rw [Prog.run_bind_some hbody]
  rfl

theorem clearSize_eq (d : DiskInode) :
    d.clearSize = (do
      let r := ({ d with size := 0 } : DiskInode).clearDirect (min d.dataBlocks.toNat 28)
      if d.dataBlocks.toNat > 28 then do
        let v ← withModify r.2.indirect1.toNat fun indirect1 =>
          pure (r.1 ++ [r.2.indirect1] ++
            (List.range (min (d.dataBlocks.toNat - 28) 128)).map indirect1.word, indirect1)
        if d.dataBlocks.toNat - 28 > 128 then
          ({ r.2 with indirect1 := 0 } : DiskInode).clearIndirect2 (d.dataBlocks.toNat - 28) v
        else pure (v, { r.2 with indirect1 := 0 })
      else pure (r.1, r.2)) := rfl

/-- `clear_size` returns the numbers of the tree, changes no block, and takes the numbers out of
the record. -/
theorem run_clearSize_emptied (ro : Bool) (hn : d.dataBlocks.toNat = n) (hbound : n ≤ 16540)
    (hnd : (tree d blk n).Nodup) (hheld : ∀ id ∈ tree d blk n, id.toNat ∉ held)
    (hcap : held.length + 1 < cap) :
    ∃ d', d.clearSize.run cap ro ⟨blk, held⟩ = some ((tree d blk n, d'), ⟨blk, held⟩) ∧
      Emptied n d d' := by
  obtain ⟨hids, hrec, hdirect'⟩ := clearDirect_spec { d with size := 0 } (n := min n 28) (by omega)
  have hdirect : ({ d with size := 0 } : DiskInode).directAt = d.directAt := rfl
  rw [hdirect] at hids
  -- the direct numbers go, whatever happens behind them
  have hzeroed : ∀ j < 28, (({ d with size := 0 } : DiskInode).clearDirect (min n 28)).2.directAt j =
      if j < n then 0 else d.directAt j := by
    intro j hj
    have hiff : j < min n 28 ↔ j < n := by omega
    rw [hdirect' j hj]
    simp only [hiff]
    rfl
  rw [clearSize_eq, hn]
  simp only [hids, hrec.indirect1]
  generalize (({ d with size := 0 } : DiskInode).clearDirect (min n 28)).2 = r at hrec hzeroed ⊢
  by_cases h28 : n > 28
  · have hmin : min n 28 = 28 := by omega
    have hfree : d.indirect1.toNat ∉ held :=
      hheld _ (slotId_mem_tree (s := .indirect1) h28)
    rw [if_pos h28, Prog.run_bind_some (run_withModify_same hfree (by omega)), hmin]
    by_cases h156 : n - 28 > 128
    · obtain ⟨m, rfl⟩ : ∃ m, n = 156 + (128 * (m / 128) + m % 128) := ⟨n - 156, by omega⟩
      have hsub : 156 + (128 * (m / 128) + m % 128) - 28 = 128 + (128 * (m / 128) + m % 128) := by
        omega
      have hmin' : min (128 + (128 * (m / 128) + m % 128)) 128 = 156 - 28 := by omega
      refine ⟨{ r with indirect1 := 0, indirect2 := 0 }, ?_, hrec.size, hzeroed,
        (if_pos h28).symm, (if_pos (by omega)).symm, hrec.type_⟩
      rw [if_pos h156, hsub, hmin', append_assoc, singleton_append,
        ← map_slotId_indirect1Slots (by omega) (by omega)]
      exact run_clearIndirect2 (Nat.mod_lt _ (by omega)) (by omega) (by omega) hnd hheld hcap
        hrec.indirect2
    · have hmin' : min (n - 28) 128 = n - 28 := by omega
      refine ⟨{ r with indirect1 := 0 }, ?_, hrec.size, hzeroed, (if_pos h28).symm,
        hrec.indirect2.trans (if_neg (by omega)).symm, hrec.type_⟩
      rw [if_neg h156, hmin', append_assoc, singleton_append,
        ← map_slotId_indirect1Slots (by omega) (by omega), tree, slots_of_le_156 h28 (by omega)]
      rfl
  · have hmin : min n 28 = n := by omega
    refine ⟨r, ?_, hrec.size, hzeroed, hrec.indirect1.trans (if_neg h28).symm,
      hrec.indirect2.trans (if_neg (by omega)).symm, hrec.type_⟩
    rw [if_neg h28, hmin, tree, slots_of_le_28 (by omega), map_slotId_directSlots (by omega)]
    rfl

end Run

end RCore.EasyFs
