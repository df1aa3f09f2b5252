import Mathlib.Data.List.Nodup

/-!
# Trees of numbered blocks

A file system reaches the blocks of a file through numbers kept in a root
record and in index blocks.  A `Shape` says, for every position of such a tree,
where its number is kept: in entry `entry s` of the root record, or of the block
at the parent position.  `Reads` is the resulting numbering for given contents.

The one fact needed is that a position whose own place in the tree is untouched
keeps its number (`Reads.eq_of_agree`), and that writing the number of a new
position touches no other (`Reads.assign`): the blocks of the tree are pairwise
distinct, so no two positions keep their numbers in the same place.
-/

namespace RCore.Lib.IndexTree

/-- The positions `S` of a tree and where their numbers are kept. -/
structure Shape (S : Type) where
  parent : S → Option S
  entry : S → Nat
  depth : S → Nat
  depth_parent : ∀ {s p}, parent s = some p → depth p < depth s
  place_inj : ∀ {s t}, parent s = parent t → entry s = entry t → s = t

variable {S Id : Type}

namespace Shape

variable (sh : Shape S)

/-- The positions of `done` are reached through positions of `done`. -/
def Closed (done : List S) : Prop := ∀ s ∈ done, ∀ p, sh.parent s = some p → p ∈ done

/-- `ids` is the numbering of the positions when entry `e` of the root record is
`root e` and entry `e` of block `id` is `cell id e`. -/
def Reads (root : Nat → Id) (cell : Id → Nat → Id) (ids : S → Id) : Prop :=
  ∀ s, ids s = match sh.parent s with
    | none => root (sh.entry s)
    | some p => cell (ids p) (sh.entry s)

variable {sh} {root root' : Nat → Id} {cell cell' : Id → Nat → Id} {ids ids' : S → Id}

theorem Reads.of_root (h : sh.Reads root cell ids) {s : S} (hs : sh.parent s = none) :
    ids s = root (sh.entry s) := by
  rw [h s, hs]

theorem Reads.of_cell (h : sh.Reads root cell ids) {s p : S} (hs : sh.parent s = some p) :
    ids s = cell (ids p) (sh.entry s) := by
  rw [h s, hs]

theorem Reads.eq_of_agree (h : sh.Reads root cell ids) (h' : sh.Reads root' cell' ids')
    {done : List S} (hclosed : sh.Closed done)
    (hroot : ∀ t ∈ done, sh.parent t = none → root' (sh.entry t) = root (sh.entry t))
    (hcell : ∀ t ∈ done, ∀ p, sh.parent t = some p →
      cell' (ids p) (sh.entry t) = cell (ids p) (sh.entry t)) :
    ∀ t ∈ done, ids' t = ids t := by
  intro t ht
  -- by induction on the depth: the parent of `t` keeps its number first
  induction hdepth : sh.depth t using Nat.strongRecOn generalizing t with
  | ind n ih =>
    cases hp : sh.parent t with
    | none => rw [h'.of_root hp, h.of_root hp, hroot t ht hp]
    | some p =>
      have hlt : sh.depth p < n := hdepth ▸ sh.depth_parent hp
      have hparent := ih _ hlt p (hclosed t ht p hp) rfl
      rw [h'.of_cell hp, h.of_cell hp, hparent, hcell t ht p hp]

/-- Writing number `v` to the place of a new position `s` gives `s` this number and
leaves the numbers of the other positions as they are. -/
theorem Reads.assign (h : sh.Reads root cell ids) (h' : sh.Reads root' cell' ids')
    {done : List S} {s : S} {v : Id} (hclosed : sh.Closed done)
    (hnodup : (done.map ids).Nodup) (hnew : s ∉ done)
    (hparent : ∀ p, sh.parent s = some p → p ∈ done)
    (hroot : ∀ t ∈ done, sh.parent t = none →
      sh.parent s ≠ none ∨ sh.entry t ≠ sh.entry s →
      root' (sh.entry t) = root (sh.entry t))
    (hroot_new : sh.parent s = none → root' (sh.entry s) = v)
    (hcell : ∀ t ∈ done, ∀ p, sh.parent t = some p →
      (∀ q, sh.parent s = some q → ids p = ids q → sh.entry t ≠ sh.entry s) →
      cell' (ids p) (sh.entry t) = cell (ids p) (sh.entry t))
    (hcell_new : ∀ p, sh.parent s = some p → cell' (ids p) (sh.entry s) = v) :
    (∀ t ∈ done, ids' t = ids t) ∧ ids' s = v := by
  have hne : ∀ t ∈ done, t ≠ s := fun t ht hts => hnew (hts ▸ ht)
  have hold : ∀ t ∈ done, ids' t = ids t := by
    apply h.eq_of_agree h' hclosed
    · intro t ht hpt
      apply hroot t ht hpt
      by_cases hps : sh.parent s = none
      · right
        intro hentry
        exact hne t ht (sh.place_inj (hpt.trans hps.symm) hentry)
      · exact Or.inl hps
    · intro t ht p hpt
      apply hcell t ht p hpt
      intro q hq hid hentry
      -- distinct positions have distinct blocks, so the two parents are one
      have hpq : p = q :=
        List.inj_on_of_nodup_map hnodup (hclosed t ht p hpt) (hparent q hq) hid
      exact hne t ht (sh.place_inj (by rw [hpt, hq, hpq]) hentry)
  refine ⟨hold, ?_⟩
  cases hp : sh.parent s with
  | none => rw [h'.of_root hp, hroot_new hp]
  | some p => rw [h'.of_cell hp, hold p (hparent p hp), hcell_new p hp]

end Shape

end RCore.Lib.IndexTree
