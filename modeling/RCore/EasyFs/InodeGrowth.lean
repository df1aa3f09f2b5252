import RCore.EasyFs.InodeTree

/-!
# Growing and clearing the block tree

`Growing` is the state of `increase_size` between two writes: the numbers in place
followed by the numbers still to be used are always the same list `all`, and only
index blocks of the tree have been written.  Each loop of `increase_size` moves
from one such state to a later one.
-/

namespace RCore.EasyFs

open RCore.Lib.LockedStore RCore.Lib.IndexTree Function List DiskInode Block
open Prog (withModify withRead check)
open Slot
open Prog (run_bind_some run_withModify)

namespace DiskInode

variable {s : Slot} {j cur total : Nat} {indirect2 : Block}

/-- Assign word `k` of the record. -/
def setField (self : DiskInode) (k : Nat) (v : UInt32) : DiskInode :=
  if k = 29 then { self with indirect1 := v }
  else if k = 30 then { self with indirect2 := v }
  else { self with direct := self.direct.setIfInBounds (k - 1) v }

theorem field_setField (self : DiskInode) {k e : Nat} (v : UInt32) (hk : 0 < k) (hk' : k < 31)
    (he : e < 31) : (self.setField k v).field e = if e = k then v else self.field e := by
  unfold setField field
  by_cases h29 : k = 29
  · subst h29
    simp only [if_true]
    grind [directAt]
  · by_cases h30 : k = 30
    · subst h30
      grind [directAt]
    · have hlt : k - 1 < inodeDirectCount := by
        unfold inodeDirectCount
        omega
      simp only [if_neg h29, if_neg h30, directAt, Vector.getElem?_setIfInBounds]
      grind

@[simp] theorem size_setField (self : DiskInode) (k : Nat) (v : UInt32) :
    (self.setField k v).size = self.size := by
  unfold setField
  split
  · rfl
  · split <;> rfl

@[simp] theorem type_setField (self : DiskInode) (k : Nat) (v : UInt32) :
    (self.setField k v).type_ = self.type_ := by
  unfold setField
  split
  · rfl
  · split <;> rfl

end DiskInode

/-! ## The invariant of growth -/

/-- From record `d₀` and blocks `blk₀`, the positions `done` are in place and the block
numbers `rest` are still to be used. -/
structure Growing (d₀ : DiskInode) (blk₀ : Nat → Block) (all : List UInt32) (d : DiskInode)
    (blk : Nat → Block) (done : List Slot) (rest : List UInt32) : Prop where
  ids : done.map (slotId d blk) ++ rest = all
  closed : shape.Closed done
  entry_lt : ∀ s ∈ done, ∀ p, s.parent = some p → s.entry < 128
  size : d.size = d₀.size
  type_ : d.type_ = d₀.type_
  frame : ∀ id : Nat, (∀ s ∈ done, s.isIndex = true → (slotId d blk s).toNat ≠ id) →
    blk id = blk₀ id

namespace Growing

variable {d₀ d : DiskInode} {blk₀ blk : Nat → Block} {all rest : List UInt32}
  {done : List Slot} {v : UInt32}

section

variable (h : Growing d₀ blk₀ all d blk done rest)
include h

theorem length_eq : done.length + rest.length = all.length := by
  rw [← h.ids, length_append, length_map]

theorem nodup_done (hnd : all.Nodup) : (done.map (slotId d blk)).Nodup := by
  rw [← h.ids] at hnd
  exact hnd.of_append_left

theorem mem_all (hs : s ∈ done) : slotId d blk s ∈ all := by
  rw [← h.ids]
  exact mem_append_left _ (mem_map_of_mem hs)

theorem exists_next (hlt : done.length < all.length) : ∃ v rest', rest = v :: rest' := by
  have hlen := h.length_eq
  cases rest with
  | nil => simp only [length_nil] at hlen; omega
  | cons v rest' => exact ⟨v, rest', rfl⟩

end

section

variable (h : Growing d₀ blk₀ all d blk done (v :: rest))
include h

/-- The new state from what is known about the numbers after the write. -/
theorem extend {d' : DiskInode} {blk' : Nat → Block}
    (hold : ∀ t ∈ done, slotId d' blk' t = slotId d blk t) (hnew : slotId d' blk' s = v)
    (hparent : ∀ p, s.parent = some p → p ∈ done)
    (hentry : ∀ p, s.parent = some p → s.entry < 128) (hsize : d'.size = d.size)
    (htype : d'.type_ = d.type_)
    (hframe : ∀ id : Nat, (∀ p, s.parent = some p → (slotId d blk p).toNat ≠ id) →
      blk' id = blk id) :
    Growing d₀ blk₀ all d' blk' (done ++ [s]) rest where
  ids := by
    rw [map_append, map_congr_left hold, ← h.ids]
    simp [hnew]
  closed := by
    intro t ht p hp
    rw [mem_append, mem_singleton] at ht
    apply mem_append_left
    rcases ht with ht | rfl
    · exact h.closed t ht p hp
    · exact hparent p hp
  entry_lt := by
    intro t ht p hp
    rw [mem_append, mem_singleton] at ht
    rcases ht with ht | rfl
    · exact h.entry_lt t ht p hp
    · exact hentry p hp
  size := hsize.trans h.size
  type_ := htype.trans h.type_
  frame := by
    intro id hid
    have hindex : ∀ t ∈ done, t.isIndex = true → (slotId d blk t).toNat ≠ id := by
      intro t ht hidx
      rw [← hold t ht]
      exact hid t (mem_append_left _ ht) hidx
    rw [hframe id (fun p hp => hindex p (hparent p hp) (isIndex_of_parent hp)), h.frame id hindex]

theorem assign_root (hnd : all.Nodup) (hs : s ∉ done) (hparent : s.parent = none) :
    Growing d₀ blk₀ all (d.setField s.entry v) blk (done ++ [s]) rest := by
  have hentry : ∀ t : Slot, t.parent = none → 0 < t.entry ∧ t.entry < 31 :=
    fun t ht => entry_bounds_of_root ht
  have hno : ∀ p, s.parent ≠ some p := by simp [hparent]
  obtain ⟨hold, hnew⟩ := (reads_slotId d blk).assign
    (reads_slotId (d.setField s.entry v) blk) (v := v) h.closed (h.nodup_done hnd) hs
    (fun p hp => absurd hp (hno p))
    (by
      intro t _ ht hne
      have hne' : t.entry ≠ s.entry := hne.resolve_left (fun hn => hn hparent)
      rw [shape_entry, d.field_setField v (hentry s hparent).1 (hentry s hparent).2
        (hentry t ht).2, if_neg hne'])
    (by
      intro _
      rw [shape_entry, d.field_setField v (hentry s hparent).1 (hentry s hparent).2
        (hentry s hparent).2, if_pos rfl])
    (fun _ _ _ _ _ => rfl) (fun p hp => absurd hp (hno p))
  exact h.extend hold hnew (fun p hp => absurd hp (hno p)) (fun p hp => absurd hp (hno p))
    (by simp) (by simp) (fun _ _ => rfl)

theorem assign_cell (hnd : all.Nodup) {p : Slot} (hs : s ∉ done) (hparent : s.parent = some p)
    (hp : p ∈ done) (hentry : s.entry < 128) :
    Growing d₀ blk₀ all d (update blk (slotId d blk p).toNat
        ((blk (slotId d blk p).toNat).setWord s.entry v)) (done ++ [s]) rest := by
  have hone : ∀ q, s.parent = some q → q = p := by
    intro q hq
    exact Option.some.inj (hq.symm.trans hparent)
  obtain ⟨hold, hnew⟩ := (reads_slotId d blk).assign
    (reads_slotId d (update blk (slotId d blk p).toNat
      ((blk (slotId d blk p).toNat).setWord s.entry v))) (v := v) h.closed (h.nodup_done hnd) hs
    (fun q hq => hone q hq ▸ hp) (fun _ _ _ _ => rfl)
    (fun hn => absurd (hparent.symm.trans hn) (by simp))
    (by
      intro t ht q hq hne
      by_cases hid : slotId d blk q = slotId d blk p
      · rw [shape_entry, hid, update_self]
        exact word_setWord_ne _ v hentry (h.entry_lt t ht q hq) (hne p hparent hid)
      · rw [update_of_ne (fun he => hid (UInt32.toNat_inj.mp he))])
    (by
      intro q hq
      rw [hone q hq, update_self, shape_entry, word_setWord_same _ v hentry])
  refine h.extend hold hnew (fun q hq => hone q hq ▸ hp) (fun _ _ => hentry) rfl rfl ?_
  intro id hid
  exact update_of_ne (Ne.symm (hid p hparent)) _ _

end

theorem ids_of_next {d' : DiskInode} {blk' : Nat → Block}
    (h : Growing d₀ blk₀ all d blk done (v :: rest))
    (h' : Growing d₀ blk₀ all d' blk' (done ++ [s]) rest) :
    (∀ t ∈ done, slotId d' blk' t = slotId d blk t) ∧ slotId d' blk' s = v := by
  have hids : done.map (slotId d' blk') ++ (slotId d' blk' s :: rest) =
      done.map (slotId d blk) ++ v :: rest := by
    rw [h.ids, ← h'.ids, map_append, append_assoc]
    rfl
  obtain ⟨hdone, hrest⟩ := append_inj hids (by simp)
  exact ⟨map_inj_left.mp hdone, (List.cons.inj hrest).1⟩

theorem next_kept (h : Growing d₀ blk₀ all d blk done (v :: rest)) (hnd : all.Nodup) :
    blk v.toNat = blk₀ v.toNat := by
  apply h.frame
  intro s hs _ he
  rw [← h.ids] at hnd
  have hmem : v ∈ done.map (slotId d blk) := by
    rw [← UInt32.toNat_inj.mp he]
    exact mem_map_of_mem hs
  exact (nodup_append.mp hnd).2.2 v hmem v (by simp) rfl

end Growing

/-- Growth, with what it leaves alone: the words that keep none of the numbers in place are
those of the record `d₀` and of the blocks `blk₀`. -/
structure GrowingFrom (d₀ : DiskInode) (blk₀ : Nat → Block) (all : List UInt32) (d : DiskInode)
    (blk : Nat → Block) (done : List Slot) (rest : List UInt32) : Prop extends
    Growing d₀ blk₀ all d blk done rest where
  root_kept : ∀ e < 31, (∀ s ∈ done, s.parent = none → s.entry ≠ e) → d.field e = d₀.field e
  cell_kept : ∀ p ∈ done, ∀ e < 128, (∀ s ∈ done, s.parent = some p → s.entry ≠ e) →
    (blk (slotId d blk p).toNat).word e = (blk₀ (slotId d blk p).toNat).word e

namespace GrowingFrom

variable {d₀ d : DiskInode} {blk₀ blk : Nat → Block} {all rest : List UInt32}
  {done : List Slot} {v : UInt32}

theorem assign_root (h : GrowingFrom d₀ blk₀ all d blk done (v :: rest)) (hnd : all.Nodup)
    (hs : s ∉ done) (hparent : s.parent = none) :
    GrowingFrom d₀ blk₀ all (d.setField s.entry v) blk (done ++ [s]) rest := by
  have hnext := h.toGrowing.assign_root hnd hs hparent
  obtain ⟨hold, hnew⟩ := h.toGrowing.ids_of_next hnext
  obtain ⟨hpos, hlt⟩ := entry_bounds_of_root hparent
  refine ⟨hnext, ?_, ?_⟩
  · intro e he hfree
    rw [forall_mem_append, forall_mem_singleton] at hfree
    rw [d.field_setField v hpos hlt he, if_neg (Ne.symm (hfree.2 hparent))]
    exact h.root_kept e he hfree.1
  · intro p hp e he hfree
    rw [forall_mem_append] at hfree
    rw [mem_append, mem_singleton] at hp
    rcases hp with hp | rfl
    · rw [hold p hp]
      exact h.cell_kept p hp e he hfree.1
    · rw [hnew, h.toGrowing.next_kept hnd]

theorem assign_cell (h : GrowingFrom d₀ blk₀ all d blk done (v :: rest)) (hnd : all.Nodup)
    {p : Slot} (hs : s ∉ done) (hparent : s.parent = some p) (hp : p ∈ done)
    (hentry : s.entry < 128) :
    GrowingFrom d₀ blk₀ all d (update blk (slotId d blk p).toNat
        ((blk (slotId d blk p).toNat).setWord s.entry v)) (done ++ [s]) rest := by
  have hnext := h.toGrowing.assign_cell hnd hs hparent hp hentry
  generalize hblk : update blk (slotId d blk p).toNat
    ((blk (slotId d blk p).toNat).setWord s.entry v) = blk' at hnext ⊢
  obtain ⟨hold, hnew⟩ := h.toGrowing.ids_of_next hnext
  -- the block written is that of `p` and of no other position
  have hother : ∀ q ∈ done ++ [s], q ≠ p →
      blk' (slotId d blk' q).toNat = blk (slotId d blk' q).toNat := by
    intro q hq hne
    rw [← hblk]
    apply update_of_ne
    rw [hblk, ← hold p hp]
    intro he
    exact hne (inj_on_of_nodup_map (hnext.nodup_done hnd) hq (mem_append_left _ hp)
      (UInt32.toNat_inj.mp he))
  refine ⟨hnext, ?_, ?_⟩
  · intro e he hfree
    rw [forall_mem_append] at hfree
    exact h.root_kept e he hfree.1
  · intro q hq e he hfree
    rw [forall_mem_append, forall_mem_singleton] at hfree
    by_cases hqp : q = p
    · subst hqp
      rw [hold q hp, ← hblk, update_self,
        word_setWord_ne _ v hentry he (Ne.symm (hfree.2 hparent))]
      exact h.cell_kept q hp e he hfree.1
    · rw [hother q hq hqp]
      rw [mem_append, mem_singleton] at hq
      rcases hq with hq | rfl
      · rw [hold q hq]
        exact h.cell_kept q hq e he hfree.1
      · rw [hnew, h.toGrowing.next_kept hnd]

theorem tree_eq {n : Nat} (h : GrowingFrom d₀ blk₀ all d blk (slots n) []) :
    tree d blk n = all := by
  have hids := h.ids
  rw [append_nil] at hids
  exact hids

end GrowingFrom

/-! ## The loops of `increase_size` -/

section Run

variable {cap : Nat} {ro : Bool} {d₀ d : DiskInode} {blk₀ blk : Nat → Block}
  {all : List UInt32} {held : List Nat}

theorem run_next {v : View Block} (id : UInt32) (rest : List UInt32) :
    (DiskInode.next (id :: rest)).run cap ro v = some ((id, rest), v) := rfl

theorem setField_data (d : DiskInode) (hj : j < 28) (v : UInt32) :
    d.setField (data j).entry v = { d with direct := d.direct.setIfInBounds j v } := by
  have h29 : j + 1 ≠ 29 := by omega
  have h30 : j + 1 ≠ 30 := by omega
  rw [entry, if_pos hj, setField, if_neg h29, if_neg h30, Nat.add_sub_cancel]

variable {rest : List UInt32}

theorem run_fillDirect (hnd : all.Nodup) (n : Nat) {d : DiskInode} {v : View Block}
    (hgrow : GrowingFrom d₀ blk₀ all d blk (directSlots cur) rest) (hcur : cur + n ≤ 28)
    (hlen : cur + n ≤ all.length) :
    ∃ d' rest', (d.fillDirect rest cur n).run cap ro v = some ((d', rest'), v) ∧
      GrowingFrom d₀ blk₀ all d' blk (directSlots (cur + n)) rest' := by
  induction n generalizing cur d rest with
  | zero => exact ⟨d, rest, rfl, hgrow⟩
  | succ n ih =>
    obtain ⟨id, rest, rfl⟩ := hgrow.exists_next (by simp [directSlots]; omega)
    have hnew : data cur ∉ directSlots cur := by simp [mem_directSlots]
    have hstep := hgrow.assign_root hnd hnew (parent_data_direct (by omega))
    rw [← directSlots_succ, setField_data d (by omega)] at hstep
    obtain ⟨d', rest', hrun, hgrow'⟩ := ih hstep (by omega) (by omega)
    refine ⟨d', rest', ?_, ?_⟩
    · rw [fillDirect, run_bind_some (run_next id rest)]
      exact hrun
    · rw [← Nat.add_assoc, Nat.add_right_comm]
      exact hgrow'

/-- The singly indirect block `b` is in hand while it is filled. -/
theorem run_fillIndirect1 (cap : Nat) (ro : Bool) (v : View Block) (hnd : all.Nodup) (n : Nat)
    {b : Block}
    (hgrow : GrowingFrom d₀ blk₀ all d (update blk d.indirect1.toNat b) (indirect1Slots cur) rest)
    (hcur : 28 ≤ cur) (hcur' : cur + n ≤ 156) (hlen : cur + n + 1 ≤ all.length) :
    ∃ b' rest', (fillIndirect1 b rest (cur - 28) n).run cap ro v =
        some ((rest', b'), v) ∧
      GrowingFrom d₀ blk₀ all d (update blk d.indirect1.toNat b')
        (indirect1Slots (cur + n)) rest' := by
  induction n generalizing cur b rest with
  | zero => exact ⟨b, rest, rfl, hgrow⟩
  | succ n ih =>
    obtain ⟨id, rest, rfl⟩ := hgrow.exists_next (by rw [length_indirect1Slots hcur]; omega)
    have hnew : data cur ∉ indirect1Slots cur := by simp [mem_indirect1Slots hcur]
    have hentry : (data cur).entry = cur - 28 := by
      rw [entry, if_neg (by omega), if_pos (by omega)]
    have hstep := hgrow.assign_cell hnd hnew (parent_data_indirect1 hcur (by omega))
      ((mem_indirect1Slots hcur).mpr (Or.inr rfl)) (by omega)
    rw [← indirect1Slots_succ hcur, hentry] at hstep
    simp only [slotId, update_self, update_idem] at hstep
    obtain ⟨b', rest', hrun, hgrow'⟩ := ih hstep (by omega) (by omega) (by omega)
    refine ⟨b', rest', ?_, ?_⟩
    · have hsub : cur + 1 - 28 = cur - 28 + 1 := by omega
      rw [fillIndirect1, run_bind_some (run_next id rest), ← hsub]
      exact hrun
    · rw [← Nat.add_assoc, Nat.add_right_comm]
      exact hgrow'

variable {indirect2 : Block}

/-- One data block below the doubly indirect block: its index block is taken, changed
and given back while the doubly indirect block stays in hand. -/
theorem run_fillCurrent (hnd : all.Nodup) {done : List Slot} {j : Nat} {id : UInt32}
    (hgrow : GrowingFrom d₀ blk₀ all d (update blk d.indirect2.toNat indirect2) done (id :: rest))
    (hj : 156 ≤ j) (hj' : j < 16540) (hnew : data j ∉ done) (hsub : sub ((j - 156) / 128) ∈ done)
    (hind2 : Slot.indirect2 ∈ done) (hheld : ∀ id ∈ all, id.toNat ∉ held)
    (hcap : held.length + 1 < cap) :
    ∃ blk', (withModify (indirect2.word ((j - 156) / 128)).toNat fun indirect1 => do
        let (id, newBlocks) ← DiskInode.next (id :: rest)
        pure (newBlocks, indirect1.setWord ((j - 156) % 128) id) : FsProg _).run cap false
          ⟨blk, d.indirect2.toNat :: held⟩ = some (rest, ⟨blk', d.indirect2.toNat :: held⟩) ∧
      GrowingFrom d₀ blk₀ all d (update blk' d.indirect2.toNat indirect2)
        (done ++ [data j]) rest := by
  let x := indirect2.word ((j - 156) / 128)
  have hx : slotId d (update blk d.indirect2.toNat indirect2) (sub ((j - 156) / 128)) =
      x := by
    simp [slotId, x]
  -- the index block is another block of the tree than the doubly indirect one
  have hne : x.toNat ≠ d.indirect2.toNat := by
    intro he
    have hsame := inj_on_of_nodup_map (hgrow.nodup_done hnd) hsub hind2
      (hx.trans (UInt32.toNat_inj.mp he))
    contradiction
  have hfree : x.toNat ∉ d.indirect2.toNat :: held := by
    rw [mem_cons, not_or]
    exact ⟨hne, hheld x (hx ▸ hgrow.mem_all hsub)⟩
  refine ⟨update blk x.toNat ((blk x.toNat).setWord ((j - 156) % 128) id), ?_, ?_⟩
  · exact run_withModify hfree (by simpa using hcap) rfl (by simp)
  · have hentry : (data j).entry = (j - 156) % 128 := by
      rw [entry, if_neg (by omega), if_neg (by omega)]
    have hstep := hgrow.assign_cell hnd hnew (parent_data_indirect2 hj) hsub (by omega)
    rw [hx, hentry, update_of_ne hne, update_comm hne.symm] at hstep
    exact hstep

/-- The next index block, when data block `j` is the first below it. -/
theorem run_allocSub (cap : Nat) (ro : Bool) (v : View Block) (hnd : all.Nodup) {j : Nat}
    (hgrow : GrowingFrom d₀ blk₀ all d (update blk d.indirect2.toNat indirect2)
      (indirect2Slots j) rest) (hj : 156 ≤ j) (hj' : j < 16540)
    (hlen : (indirect2Slots (j + 1)).length ≤ all.length) :
    ∃ indirect2' done id rest',
      (allocSub indirect2 rest ((j - 156) / 128) ((j - 156) % 128)).run cap ro v =
        some ((indirect2', id :: rest'), v) ∧
      GrowingFrom d₀ blk₀ all d (update blk d.indirect2.toNat indirect2') done (id :: rest') ∧
      data j ∉ done ∧ sub ((j - 156) / 128) ∈ done ∧ Slot.indirect2 ∈ done ∧
      done ++ [data j] = indirect2Slots (j + 1) := by
  have hdata : data j ∉ indirect2Slots j := by simp [mem_indirect2Slots hj]
  have hind2 : Slot.indirect2 ∈ indirect2Slots j :=
    (mem_indirect2Slots hj).mpr (Or.inr (Or.inr (Or.inl rfl)))
  rw [indirect2Slots_succ hj] at hlen ⊢
  by_cases hmod : (j - 156) % 128 = 0
  · have hsucc : subSlots j = [sub ((j - 156) / 128)] ++ [data j] := by
      rw [subSlots, if_pos hmod]
    rw [hsucc] at hlen ⊢
    simp only [length_append, length_cons, length_nil] at hlen
    obtain ⟨id₁, rest, rfl⟩ := hgrow.exists_next (by omega)
    have hnew : sub ((j - 156) / 128) ∉ indirect2Slots j := by
      rw [mem_indirect2Slots hj]
      simp only [reduceCtorEq, and_false, exists_false, false_or, Slot.sub.injEq, not_exists,
        not_and]
      intro a ha heq
      omega
    have hstep := hgrow.assign_cell hnd hnew rfl hind2 (show (j - 156) / 128 < 128 by omega)
    simp only [slotId, update_self, update_idem] at hstep
    obtain ⟨id₂, rest', rfl⟩ := hstep.exists_next (by
      simp only [length_append, length_cons, length_nil]
      omega)
    refine ⟨_, _, id₂, rest', ?_, hstep, ?_, ?_, ?_, ?_⟩
    · rw [allocSub, if_pos hmod, run_bind_some (run_next _ _)]
      rfl
    · simp [hdata]
    · simp
    · exact mem_append_left _ hind2
    · rw [append_assoc]
  · have hsucc : subSlots j = [data j] := by rw [subSlots, if_neg hmod, nil_append]
    rw [hsucc] at hlen ⊢
    simp only [length_append, length_cons, length_nil] at hlen
    obtain ⟨id, rest, rfl⟩ := hgrow.exists_next (by omega)
    refine ⟨indirect2, indirect2Slots j, id, rest, ?_, hgrow, hdata, ?_, hind2, rfl⟩
    · rw [allocSub, if_neg hmod]
      rfl
    · exact (mem_indirect2Slots hj).mpr (Or.inr (Or.inr (Or.inr ⟨_, by omega, rfl⟩)))

theorem length_indirect2Slots_mono {m n : Nat} (h : 156 ≤ m) (hmn : m ≤ n) :
    (indirect2Slots m).length ≤ (indirect2Slots n).length := by
  obtain ⟨k, rfl⟩ : ∃ k, m = 156 + k := ⟨m - 156, by omega⟩
  obtain ⟨l, rfl⟩ : ∃ l, n = 156 + l := ⟨n - 156, by omega⟩
  rw [length_indirect2Slots, length_indirect2Slots]
  omega

theorem run_fillIndirect2 (hnd : all.Nodup) (hheld : ∀ id ∈ all, id.toNat ∉ held)
    (hcap : held.length + 1 < cap) {total : Nat} (htotal : total ≤ 16384)
    (hlen : (indirect2Slots (156 + total)).length ≤ all.length) (n : Nat) {cur : Nat}
    (hcur : cur + n = total) {blk : Nat → Block}
    (hgrow : GrowingFrom d₀ blk₀ all d (update blk d.indirect2.toNat indirect2)
      (indirect2Slots (156 + cur)) rest) :
    ∃ blk' indirect2' rest',
      (fillIndirect2 (total / 128) (total % 128) n indirect2 rest (cur / 128)
        (cur % 128)).run cap false ⟨blk, d.indirect2.toNat :: held⟩ =
        some ((rest', indirect2'), ⟨blk', d.indirect2.toNat :: held⟩) ∧
      GrowingFrom d₀ blk₀ all d (update blk' d.indirect2.toNat indirect2')
        (indirect2Slots (156 + total)) rest' := by
  induction n generalizing cur blk indirect2 rest with
  | zero =>
    have hdone : ¬(cur / 128 < total / 128 ∨
        (cur / 128 = total / 128 ∧ cur % 128 < total % 128)) := by omega
    refine ⟨blk, indirect2, rest, ?_, ?_⟩
    · rw [fillIndirect2, if_neg hdone]
      rfl
    · rw [← hcur]
      exact hgrow
  | succ n ih =>
    have hmore : cur / 128 < total / 128 ∨
        (cur / 128 = total / 128 ∧ cur % 128 < total % 128) := by omega
    have hindex : decide (cur / 128 < inodeIndirect1Count) = true := by
      rw [inodeIndirect1Count_eq, decide_eq_true_eq]
      omega
    have hbelow : 156 + cur - 156 = cur := by omega
    have hlen' : (indirect2Slots (156 + cur + 1)).length ≤ all.length :=
      (length_indirect2Slots_mono (by omega) (by omega)).trans hlen
    obtain ⟨indirect2', done, id, rest', hrun₁, hgrow₁, hdata, hsub, hind2, hdone⟩ :=
      run_allocSub cap false ⟨blk, d.indirect2.toNat :: held⟩ hnd hgrow (by omega) (by omega) hlen'
    obtain ⟨blk', hrun₂, hgrow₂⟩ := run_fillCurrent hnd hgrow₁ (by omega) (by omega) hdata hsub
      hind2 hheld hcap
    rw [hdone, Nat.add_assoc] at hgrow₂
    obtain ⟨blk'', indirect2'', rest'', hrun₃, hgrow₃⟩ := ih (by omega) hgrow₂
    refine ⟨blk'', indirect2'', rest'', ?_, hgrow₃⟩
    rw [hbelow] at hrun₁ hrun₂
    rw [fillIndirect2, if_pos hmore, hindex,
      run_bind_some (Prog.run_check_true _), run_bind_some hrun₁]
    refine (run_bind_some hrun₂).trans ?_
    -- the next pair is the quotient and the remainder of the next number
    rw [inodeIndirect1Count_eq]
    split
    · rename_i hwrap
      have hdiv : (cur + 1) / 128 = cur / 128 + 1 := by omega
      have hmod : (cur + 1) % 128 = 0 := by omega
      rw [hdiv, hmod] at hrun₃
      exact hrun₃
    · rename_i hwrap
      have hdiv : (cur + 1) / 128 = cur / 128 := by omega
      have hmod : (cur + 1) % 128 = cur % 128 + 1 := by omega
      rw [hdiv, hmod] at hrun₃
      exact hrun₃

theorem run_increaseIndirect2 (hnd : all.Nodup) (hheld : ∀ id ∈ all, id.toNat ∉ held)
    (hcap : held.length + 1 < cap) {cur total : Nat} (hcur : 156 ≤ cur) (hlt : cur ≤ total)
    (hgt : 156 < total) (htotal : total ≤ 16540)
    (hlen : (indirect2Slots total).length ≤ all.length)
    (hgrow : GrowingFrom d₀ blk₀ all d blk (slots cur) rest) :
    ∃ d' blk' rest', (d.increaseIndirect2 rest (cur - 28) (total - 28)).run cap false
        ⟨blk, held⟩ = some (d', ⟨blk', held⟩) ∧
      GrowingFrom d₀ blk₀ all d' blk' (slots total) rest' := by
  rw [slots_of_gt_156 hgt]
  have hmono := length_indirect2Slots_mono (show 156 ≤ 156 by omega) (show 156 ≤ total by omega)
  have hlen156 : (indirect2Slots 156).length = 158 := length_indirect2Slots 0
  -- the doubly indirect block is in place after the first step
  obtain ⟨d₁, rest₁, hrun₁, hgrow₁⟩ : ∃ d₁ rest₁,
      (d.allocIndirect2 rest (cur - 28)).run cap false ⟨blk, held⟩ =
        some ((d₁, rest₁), ⟨blk, held⟩) ∧
      GrowingFrom d₀ blk₀ all d₁ blk (indirect2Slots cur) rest₁ := by
    rw [allocIndirect2, inodeIndirect1Count_eq]
    by_cases h156 : cur = 156
    · subst h156
      rw [slots_of_le_156 (by omega) (by omega)] at hgrow
      obtain ⟨id, rest, rfl⟩ := hgrow.exists_next (by
        rw [length_indirect1Slots (by omega)]
        omega)
      have hnew : Slot.indirect2 ∉ indirect1Slots 156 := by
        simp [mem_indirect1Slots (show 28 ≤ 156 by omega)]
      exact ⟨{ d with indirect2 := id }, rest, rfl, hgrow.assign_root hnd hnew rfl⟩
    · rw [slots_of_gt_156 (by omega)] at hgrow
      rw [if_neg (by omega)]
      exact ⟨d, rest, rfl, hgrow⟩
  have hmem : Slot.indirect2 ∈ indirect2Slots cur :=
    (mem_indirect2Slots hcur).mpr (Or.inr (Or.inr (Or.inl rfl)))
  obtain ⟨cur, rfl⟩ : ∃ m, cur = 156 + m := ⟨cur - 156, by omega⟩
  obtain ⟨total, rfl⟩ : ∃ m, total = 156 + m := ⟨total - 156, by omega⟩
  have hgrow₁' : GrowingFrom d₀ blk₀ all d₁
      (update blk d₁.indirect2.toNat (blk d₁.indirect2.toNat)) (indirect2Slots (156 + cur))
      rest₁ := by
    rw [update_eq_self]
    exact hgrow₁
  obtain ⟨blk', indirect2', rest', hrun₂, hgrow₂⟩ := run_fillIndirect2 hnd hheld hcap
    (by omega) hlen (total - cur) (by omega) hgrow₁'
  refine ⟨d₁, _, rest', ?_, hgrow₂⟩
  have hcur' : 156 + cur - 28 - 128 = cur := by omega
  have htotal' : 156 + total - 28 - 128 = total := by omega
  have hfree : d₁.indirect2.toNat ∉ held := hheld _ (hgrow₁.mem_all hmem)
  have hfill := run_withModify (f := fun indirect2 =>
      fillIndirect2 (total / 128) (total % 128) (total - cur) indirect2 rest₁ (cur / 128)
        (cur % 128)) hfree (show held.length < cap by omega) hrun₂ (fun h => by simp at h)
  rw [increaseIndirect2, run_bind_some hrun₁]
  simp only [inodeIndirect1Count_eq, hcur', htotal']
  exact (run_bind_some hfill).trans rfl

theorem run_allocIndirect1 (cap : Nat) (ro : Bool) (held : List Nat) (hnd : all.Nodup)
    (hcur : 28 ≤ cur) (hlen : 28 < all.length)
    (hgrow : GrowingFrom d₀ blk₀ all d blk (slots cur) rest) :
    ∃ d' rest', (d.allocIndirect1 rest cur).run cap ro ⟨blk, held⟩ =
        some ((d', rest'), ⟨blk, held⟩) ∧
      GrowingFrom d₀ blk₀ all d' blk
        (if cur ≤ 156 then indirect1Slots cur else indirect2Slots cur) rest' := by
  rw [allocIndirect1, inodeDirectCount_eq]
  by_cases h28 : cur = 28
  · subst h28
    rw [slots_of_le_28 (by omega)] at hgrow
    obtain ⟨id, rest, rfl⟩ := hgrow.exists_next (by simpa [directSlots] using hlen)
    have hnew : Slot.indirect1 ∉ directSlots 28 := by simp [mem_directSlots]
    exact ⟨{ d with indirect1 := id }, rest, rfl, hgrow.assign_root hnd hnew rfl⟩
  · rw [if_neg h28]
    refine ⟨d, rest, rfl, ?_⟩
    split
    · rename_i h156
      rw [slots_of_le_156 (by omega) h156] at hgrow
      exact hgrow
    · rw [slots_of_gt_156 (by omega)] at hgrow
      exact hgrow

/-- The part of `increase_size` that fills the singly indirect block; it does nothing
when the block is full already. -/
theorem run_fillIndirect1Block (hnd : all.Nodup) (hheld : ∀ id ∈ all, id.toNat ∉ held)
    (hcap : held.length < cap) (hcur : 28 ≤ cur) (hle : cur ≤ total) (hgt : 28 < total)
    (hlen : min total 156 + 1 ≤ all.length)
    (hgrow : GrowingFrom d₀ blk₀ all d blk (if cur ≤ 156 then indirect1Slots cur
      else indirect2Slots cur) rest) :
    ∃ blk' rest',
      (withModify d.indirect1.toNat fun indirect1 =>
        fillIndirect1 indirect1 rest (cur - 28)
          (min (total - 28) 128 - (cur - 28))).run cap false ⟨blk, held⟩ =
        some (rest', ⟨blk', held⟩) ∧
      GrowingFrom d₀ blk₀ all d blk' (slots (max cur (min total 156))) rest' := by
  have hmem : Slot.indirect1 ∈
      (if cur ≤ 156 then indirect1Slots cur else indirect2Slots cur) := by
    split
    · exact (mem_indirect1Slots hcur).mpr (Or.inr rfl)
    · exact (mem_indirect2Slots (by omega)).mpr (Or.inr (Or.inl rfl))
  have hfree : d.indirect1.toNat ∉ held := hheld _ (hgrow.mem_all hmem)
  by_cases h156 : cur ≤ 156
  · rw [if_pos h156] at hgrow
    have hgrow' : GrowingFrom d₀ blk₀ all d
        (update blk d.indirect1.toNat (blk d.indirect1.toNat)) (indirect1Slots cur)
        rest := by
      rw [update_eq_self]
      exact hgrow
    have hn : min (total - 28) 128 - (cur - 28) = min total 156 - cur := by omega
    obtain ⟨b', rest', hrun, hgrow''⟩ := run_fillIndirect1 cap false
      ⟨blk, d.indirect1.toNat :: held⟩ hnd (min total 156 - cur) hgrow' hcur (by omega)
      (by omega)
    have hmax : max cur (min total 156) = cur + (min total 156 - cur) := by omega
    rw [hmax, slots_of_le_156 (by omega) (by omega), hn]
    exact ⟨_, rest', run_withModify hfree hcap hrun (fun h => by simp at h), hgrow''⟩
  · rw [if_neg h156] at hgrow
    have hn : min (total - 28) 128 - (cur - 28) = 0 := by omega
    have hmax : max cur (min total 156) = cur := by omega
    rw [hn, hmax, slots_of_gt_156 (by omega)]
    refine ⟨update blk d.indirect1.toNat (blk d.indirect1.toNat), rest,
      run_withModify hfree hcap rfl (fun h => by simp at h), ?_⟩
    rw [update_eq_self]
    exact hgrow

theorem increaseIndirect1_eq (d : DiskInode) (newBlocks : List UInt32) (cur total : Nat) :
    d.increaseIndirect1 newBlocks cur total = (do
      let (d, newBlocks) ← d.allocIndirect1 newBlocks cur
      let newBlocks ← withModify d.indirect1.toNat fun indirect1 =>
        fillIndirect1 indirect1 newBlocks (cur - 28)
          (min (total - 28) 128 - (cur - 28))
      if 128 < total - 28 then
        d.increaseIndirect2 newBlocks (max (cur - 28) (min (total - 28) 128)) (total - 28)
      else pure d) := rfl

theorem run_increaseIndirect1 (hnd : all.Nodup) (hheld : ∀ id ∈ all, id.toNat ∉ held)
    (hcap : held.length + 1 < cap) (hcur : 28 ≤ cur) (hle : cur ≤ total) (hgt : 28 < total)
    (htotal : total ≤ 16540) (hlen : blockCount total = all.length)
    (hgrow : GrowingFrom d₀ blk₀ all d blk (slots cur) rest) :
    ∃ d' blk' rest', (d.increaseIndirect1 rest cur total).run cap false ⟨blk, held⟩ =
        some (d', ⟨blk', held⟩) ∧
      GrowingFrom d₀ blk₀ all d' blk' (slots total) rest' := by
  have hcount : total + 1 ≤ all.length := by
    rw [← hlen, blockCount, if_pos hgt]
    omega
  obtain ⟨d₁, rest₁, hrun₁, hgrow₁⟩ := run_allocIndirect1 cap false held hnd hcur (by omega) hgrow
  obtain ⟨blk₂, rest₂, hrun₂, hgrow₂⟩ := run_fillIndirect1Block hnd hheld
    (show held.length < cap by omega) hcur hle hgt (by omega) hgrow₁
  rw [increaseIndirect1_eq, run_bind_some hrun₁, run_bind_some hrun₂]
  split
  · rename_i hmore
    have h156 : 156 < total := by omega
    have hmax : max (cur - 28) (min (total - 28) 128) = max cur (min total 156) - 28 := by omega
    rw [hmax]
    apply run_increaseIndirect2 hnd hheld hcap (by omega) (by omega) h156 htotal _ hgrow₂
    rw [← hlen, ← slots_of_gt_156 h156, length_slots]
  · have hmax : max cur (min total 156) = total := by omega
    rw [hmax] at hgrow₂
    exact ⟨d₁, blk₂, rest₂, rfl, hgrow₂⟩

end Run

/-! ## `increase_size` -/

theorem slotId_withSize (d : DiskInode) (blk : Nat → Block) (size : UInt32) :
    slotId { d with size := size } blk = slotId d blk := by
  funext s
  cases s <;> rfl

theorem increaseSize_eq (d : DiskInode) (newSize : UInt32) (newBlocks : List UInt32) :
    d.increaseSize newSize newBlocks = (do
      let (d', newBlocks) ← ({ d with size := newSize } : DiskInode).fillDirect newBlocks
        d.dataBlocks.toNat (min (dataBlocksOf newSize).toNat 28 - d.dataBlocks.toNat)
      if (dataBlocksOf newSize).toNat > 28 then
        d'.increaseIndirect1 newBlocks
          (max d.dataBlocks.toNat (min (dataBlocksOf newSize).toNat 28))
          (dataBlocksOf newSize).toNat
      else pure d') := rfl

/-- `increase_size` puts the new blocks into the places behind those in use, and changes
nothing else. -/
theorem run_increaseSize_from {cap : Nat} {blk : Nat → Block} {held : List Nat} (d : DiskInode)
    {newSize : UInt32} {v : List UInt32} (hcur : d.dataBlocks.toNat = cur)
    (htotal : (dataBlocksOf newSize).toNat = total) (hle : cur ≤ total)
    (hbound : total ≤ 16540) (hnd : (tree d blk cur ++ v).Nodup)
    (hlen : v.length = blockCount total - blockCount cur)
    (hheld : ∀ id ∈ tree d blk cur ++ v, id.toNat ∉ held) (hcap : held.length + 1 < cap) :
    ∃ d' blk', (d.increaseSize newSize v).run cap false ⟨blk, held⟩ = some (d', ⟨blk', held⟩) ∧
      GrowingFrom { d with size := newSize } blk (tree d blk cur ++ v) d' blk' (slots total)
        [] := by
  let all := tree d blk cur ++ v
  have hmono := blockCount_mono hle
  have hall : blockCount total = all.length := by
    rw [length_append, tree, length_map, length_slots, hlen]
    omega
  have hcount : total ≤ all.length := by
    rw [← hall, blockCount]
    omega
  have hstart : GrowingFrom { d with size := newSize } blk all { d with size := newSize } blk
      (slots cur) v :=
    { ids := by rw [slotId_withSize]; rfl
      closed := closed_slots cur
      entry_lt := fun s hs p hp =>
        entry_lt_of_inUse (hle.trans hbound) (mem_slots.mp hs) hp
      size := rfl
      type_ := rfl
      frame := fun _ _ => rfl
      root_kept := fun _ _ _ => rfl
      cell_kept := fun _ _ _ _ _ => rfl }
  -- the direct blocks; nothing happens there when they are all in use
  obtain ⟨d₁, rest₁, hrun₁, hgrow₁⟩ : ∃ d₁ rest₁,
      (({ d with size := newSize } : DiskInode).fillDirect v cur (min total 28 - cur)).run cap
        false ⟨blk, held⟩ = some ((d₁, rest₁), ⟨blk, held⟩) ∧
      GrowingFrom { d with size := newSize } blk all d₁ blk (slots (max cur (min total 28)))
        rest₁ := by
    by_cases h28 : cur ≤ 28
    · have hmax : max cur (min total 28) = cur + (min total 28 - cur) := by omega
      rw [slots_of_le_28 h28] at hstart
      rw [hmax, slots_of_le_28 (by omega)]
      exact run_fillDirect hnd _ hstart (by omega) (show _ ≤ all.length by omega)
    · have hzero : min total 28 - cur = 0 := by omega
      have hmax : max cur (min total 28) = cur := by omega
      rw [hzero, hmax]
      exact ⟨_, v, rfl, hstart⟩
  obtain ⟨d₂, blk₂, rest₂, hrun₂, hgrow₂⟩ : ∃ d₂ blk₂ rest₂,
      (if total > 28 then d₁.increaseIndirect1 rest₁ (max cur (min total 28)) total
        else pure d₁).run cap false ⟨blk, held⟩ = some (d₂, ⟨blk₂, held⟩) ∧
      GrowingFrom { d with size := newSize } blk all d₂ blk₂ (slots total) rest₂ := by
    by_cases h28 : 28 < total
    · rw [if_pos h28]
      exact run_increaseIndirect1 hnd hheld hcap (by omega) (by omega) h28 hbound hall hgrow₁
    · have hmax : max cur (min total 28) = total := by omega
      rw [if_neg h28]
      rw [hmax] at hgrow₁
      exact ⟨d₁, blk, rest₁, rfl, hgrow₁⟩
  have hrest : rest₂ = [] := by
    have hlen₂ := hgrow₂.length_eq
    rw [length_slots, hall] at hlen₂
    exact length_eq_zero_iff.mp (by omega)
  refine ⟨d₂, blk₂, ?_, hrest ▸ hgrow₂⟩
  rw [increaseSize_eq, hcur, htotal, run_bind_some hrun₁]
  exact hrun₂

end RCore.EasyFs
