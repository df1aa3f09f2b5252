import Mathlib.Logic.Function.Basic
import Mathlib.Data.List.Basic

/-!
# Radix trees of linked nodes

A store gives every node one word for each index.  The words of inner nodes are
links to other nodes or empty, the words of the nodes on the bottom level are
the payload.  `Tree` says that the nodes reached from a root form a tree: every
node is reached by one path only.  Its rules are the two ways in which such a
tree is changed, `setLeaf` and `addNode`, and `congr` for changes elsewhere.
-/

namespace RCore.Lib.RadixTree

open Function List

variable {ν ι ω : Type}

/-- The words of inner nodes. -/
structure Format (ν ω : Type) where
  empty : ω
  link : ν → ω

/-- A word that refers to a child if there is one. -/
def Format.entry (fmt : Format ν ω) : Option ν → ω
  | some child => fmt.link child
  | none => fmt.empty

/-- The store holds a tree of the given depth: `nodes` tells which node stands at the end of
a path from the root, and `leaf` the payload at the end of a path of full length. -/
structure Tree (fmt : Format ν ω) (depth : Nat) (root : ν) (cell : ν → ι → ω)
    (nodes : List ι → Option ν) (leaf : List ι → ω) : Prop where
  root_eq : nodes [] = some root
  closed : ∀ {path i}, nodes path = none → nodes (path ++ [i]) = none
  length_lt : ∀ {path p}, nodes path = some p → path.length < depth
  inj : ∀ {path path' p}, nodes path = some p → nodes path' = some p → path = path'
  inner : ∀ {path p}, nodes path = some p → path.length + 1 < depth →
    ∀ i, cell p i = fmt.entry (nodes (path ++ [i]))
  bottom : ∀ {path p}, nodes path = some p → path.length + 1 = depth →
    ∀ i, cell p i = leaf (path ++ [i])
  missing : ∀ {path}, nodes path = none → path.length + 1 = depth →
    ∀ i, leaf (path ++ [i]) = fmt.empty

/-- Only the root. -/
def rootOnly (root : ν) : List ι → Option ν
  | [] => some root
  | _ :: _ => none

namespace Tree

variable {fmt : Format ν ω} {depth : Nat} {root : ν} {cell cell' : ν → ι → ω}
  {nodes : List ι → Option ν} {leaf leaf' : List ι → ω}

theorem single (hdepth : 0 < depth) (hempty : ∀ i, cell root i = fmt.empty) :
    Tree fmt depth root cell (rootOnly root) fun _ => fmt.empty where
  root_eq := rfl
  closed := by
    intro path i _
    cases path <;> rfl
  length_lt := by
    intro path p hp
    cases path with
    | nil => exact hdepth
    | cons i path => simp [rootOnly] at hp
  inj := by
    intro path path' p hp hp'
    cases path <;> cases path' <;> simp_all [rootOnly]
  inner := by
    intro path p hp _ i
    cases path with
    | nil =>
      simp only [rootOnly, Option.some.injEq] at hp
      rw [← hp, hempty]
      rfl
    | cons j path => simp [rootOnly] at hp
  bottom := by
    intro path p hp _ i
    cases path with
    | nil =>
      simp only [rootOnly, Option.some.injEq] at hp
      rw [← hp, hempty]
    | cons j path => simp [rootOnly] at hp
  missing := fun _ _ _ => rfl

theorem congr (h : Tree fmt depth root cell nodes leaf)
    (hcell : ∀ {path p}, nodes path = some p → ∀ i, cell' p i = cell p i) :
    Tree fmt depth root cell' nodes leaf where
  root_eq := h.root_eq
  closed := h.closed
  length_lt := h.length_lt
  inj := h.inj
  inner := fun hp hlt i => (hcell hp i).trans (h.inner hp hlt i)
  bottom := fun hp hlen i => (hcell hp i).trans (h.bottom hp hlen i)
  missing := h.missing

theorem congr_leaf (h : Tree fmt depth root cell nodes leaf)
    (hleaf : ∀ path : List ι, path.length = depth → leaf' path = leaf path) :
    Tree fmt depth root cell nodes leaf' where
  root_eq := h.root_eq
  closed := h.closed
  length_lt := h.length_lt
  inj := h.inj
  inner := h.inner
  bottom := by
    intro path p hp hlen i
    rw [h.bottom hp hlen i, hleaf _ (by simpa using hlen)]
  missing := by
    intro path hp hlen i
    rw [hleaf _ (by simpa using hlen), h.missing hp hlen i]

variable [DecidableEq ι]

/-- One word of a node on the bottom level changes. -/
theorem setLeaf (h : Tree fmt depth root cell nodes leaf) {path : List ι} {p : ν} {i : ι} {w : ω}
    (hp : nodes path = some p) (hlen : path.length + 1 = depth) (hnew : cell' p i = w)
    (hold : ∀ {path' p'}, nodes path' = some p' → ∀ j, p' ≠ p ∨ j ≠ i → cell' p' j = cell p' j) :
    Tree fmt depth root cell' nodes (update leaf (path ++ [i]) w) where
  root_eq := h.root_eq
  closed := h.closed
  length_lt := h.length_lt
  inj := h.inj
  inner := by
    intro path' p' hp' hlt j
    rw [hold hp' j, h.inner hp' hlt]
    left
    rintro rfl
    rw [h.inj hp' hp] at hlt
    omega
  bottom := by
    intro path' p' hp' hlen' j
    by_cases hsame : path' ++ [j] = path ++ [i]
    · obtain ⟨rfl, hj⟩ := append_inj' hsame rfl
      rw [hp'] at hp
      cases hp
      cases hj
      rw [update_self, hnew]
    · rw [update_of_ne hsame, hold hp' j, h.bottom hp' hlen']
      by_contra hno
      simp only [not_or, not_not] at hno
      obtain ⟨rfl, rfl⟩ := hno
      rw [h.inj hp' hp] at hsame
      exact hsame rfl
  missing := by
    intro path' hp' hlen' j
    rw [update_of_ne, h.missing hp' hlen']
    intro he
    rw [(append_inj' he rfl).1, hp] at hp'
    cases hp'

theorem of_update_eq_some {path path' : List ι} {q p' : ν}
    (h : update nodes path (some q) path' = some p') :
    (path' = path ∧ p' = q) ∨ (path' ≠ path ∧ nodes path' = some p') := by
  by_cases hnew : path' = path
  · rw [hnew, update_self, Option.some.injEq] at h
    exact .inl ⟨hnew, h.symm⟩
  · rw [update_of_ne hnew] at h
    exact .inr ⟨hnew, h⟩

theorem of_update_eq_none {path path' : List ι} {q : ν}
    (h : update nodes path (some q) path' = none) : path' ≠ path ∧ nodes path' = none := by
  have hne : path' ≠ path := by
    rintro rfl
    rw [update_self] at h
    cases h
  rw [update_of_ne hne] at h
  exact ⟨hne, h⟩

/-- An empty node is linked into an empty word of an inner node. -/
theorem addNode (h : Tree fmt depth root cell nodes leaf) {path : List ι} {p q : ν} {i : ι}
    (hp : nodes path = some p) (hlen : path.length + 1 < depth) (hfree : nodes (path ++ [i]) = none)
    (hfresh : ∀ path', nodes path' ≠ some q) (hempty : ∀ j, cell' q j = fmt.empty)
    (hlink : cell' p i = fmt.link q)
    (hold : ∀ {path' p'}, nodes path' = some p' → ∀ j, p' ≠ p ∨ j ≠ i → cell' p' j = cell p' j) :
    Tree fmt depth root cell' (update nodes (path ++ [i]) (some q)) leaf where
  root_eq := by
    rw [update_of_ne (by simp)]
    exact h.root_eq
  closed := by
    intro path' j hnone
    obtain ⟨-, hnone⟩ := of_update_eq_none hnone
    rw [update_of_ne, h.closed hnone]
    intro he
    rw [(append_inj' he rfl).1, hp] at hnone
    cases hnone
  length_lt := by
    intro path' p' hp'
    rcases of_update_eq_some hp' with ⟨rfl, -⟩ | ⟨-, hnode⟩
    · rw [length_append, length_singleton]
      exact hlen
    · exact h.length_lt hnode
  inj := by
    intro path₁ path₂ p' h₁ h₂
    rcases of_update_eq_some h₁ with ⟨rfl, rfl⟩ | ⟨-, hnode₁⟩
    · rcases of_update_eq_some h₂ with ⟨rfl, -⟩ | ⟨-, hnode₂⟩
      · rfl
      · exact absurd hnode₂ (hfresh path₂)
    · rcases of_update_eq_some h₂ with ⟨rfl, rfl⟩ | ⟨-, hnode₂⟩
      · exact absurd hnode₁ (hfresh path₁)
      · exact h.inj hnode₁ hnode₂
  inner := by
    intro path' p' hp' hlt j
    rcases of_update_eq_some hp' with ⟨rfl, rfl⟩ | ⟨-, hnode⟩
    · -- the new node has no children yet
      rw [hempty, update_of_ne (by simp), h.closed hfree]
      rfl
    · by_cases hsame : path' ++ [j] = path ++ [i]
      · obtain ⟨rfl, hj⟩ := append_inj' hsame rfl
        rw [hnode] at hp
        cases hp
        cases hj
        rw [update_self, hlink]
        rfl
      · rw [update_of_ne hsame, hold hnode j, h.inner hnode hlt]
        by_contra hno
        simp only [not_or, not_not] at hno
        obtain ⟨rfl, rfl⟩ := hno
        rw [h.inj hnode hp] at hsame
        exact hsame rfl
  bottom := by
    intro path' p' hp' hlen' j
    rcases of_update_eq_some hp' with ⟨rfl, rfl⟩ | ⟨-, hnode⟩
    · rw [hempty, h.missing hfree hlen']
    · rw [hold hnode j, h.bottom hnode hlen']
      left
      rintro rfl
      rw [h.inj hnode hp] at hlen'
      omega
  missing := by
    intro path' hp' hlen' j
    exact h.missing (of_update_eq_none hp').2 hlen' j

end Tree

end RCore.Lib.RadixTree
