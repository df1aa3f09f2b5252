import RCore.Mm.PageTable

/-!
# The frames of page tables

What the operations on a page table do to the allocator and to memory.  The frames
in use are those of the table and others, `rest`; an operation stops for want of
frames only if fewer than it may need are left.
-/

namespace RCore.Mm

open RCore.Lib.RadixTree RCore.Lib.Outcome Memory List PageTable

/-- The table has got at most `n` new frames, and memory has changed in its frames only. -/
structure Grown (low high : Nat) (rest : List Nat) (n : Nat) (t : PageTable) (s : PhysMem)
    (t' : PageTable) (s' : PhysMem) : Prop where
  owns : s'.allocator.Owns low high (t'.frames ++ rest)
  root : t'.rootPpn = t.rootPpn
  sub : t.frames ⊆ t'.frames
  length : t'.frames.length ≤ t.frames.length + n
  bytes : SameOutside t'.frames s.bytes s'.bytes

variable {low high : Nat} {rest : List Nat} {t t' t'' : PageTable} {s s' s'' : PhysMem}
  {mapping : Mapping} {nodes : List (Fin 512) → Option Nat} {vpn ppn : Nat}

namespace Grown

theorem refl (howns : s.allocator.Owns low high (t.frames ++ rest)) (n : Nat) :
    Grown low high rest n t s t s :=
  ⟨howns, rfl, Subset.refl _, Nat.le_add_right _ _, .refl _ _⟩

theorem trans {n m : Nat} (h : Grown low high rest n t s t' s')
    (h' : Grown low high rest m t' s' t'' s'') : Grown low high rest (n + m) t s t'' s'' where
  owns := h'.owns
  root := h'.root.trans h.root
  sub := Subset.trans h.sub h'.sub
  length := by
    have := h.length
    have := h'.length
    omega
  bytes := h.bytes.trans h'.bytes h'.sub

end Grown

namespace TableInv

section

variable (h : TableInv t s.bytes mapping nodes)
  (howns : s.allocator.Owns low high (t.frames ++ rest))
include h howns

/-- One round of `find_pte_create` above the bottom level. -/
theorem findPteCreateLoop_grown {path : List (Fin 512)} {p : Nat} (hp : nodes path = some p)
    (hlen : path.length + 1 < 3) {k : Nat} (hk : k ≠ 2) (i : Fin 512) (idxs : List (Nat × Nat)) :
    (∃ q t' s' nodes', findPteCreateLoop ((k, i.val) :: idxs) p t s =
        findPteCreateLoop idxs q t' s' ∧
      TableInv t' s'.bytes mapping nodes' ∧ nodes' (path ++ [i]) = some q ∧
      Grown low high rest 1 t s t' s') ∨
    (findPteCreateLoop ((k, i.val) :: idxs) p t s = none ∧
      high ≤ low + (t.frames.length + rest.length)) := by
  have hfresh : ∀ q a, s.allocator.alloc = some (q, a) → q ∉ t.frames :=
    fun q a halloc hmem => (howns.alloc halloc).1 (mem_append_left _ hmem)
  rcases h.findPteCreateLoop_cases hp hlen hk i idxs hfresh with
    ⟨q, hq, hloop⟩ | ⟨q, a, bytes, halloc, hloop, hinv, hbytes⟩ | ⟨halloc, hloop⟩
  · exact .inl ⟨q, t, s, nodes, hloop, h, hq, .refl howns 1⟩
  · refine .inl ⟨q, _, _, _, hloop, hinv, Function.update_self _ _ _, ?_, rfl,
      subset_append_left _ _, by simp, hbytes⟩
    refine (howns.alloc halloc).2.congr fun x => ?_
    simp only [count_append, count_cons, count_nil]
    omega
  · exact .inr ⟨hloop, by simpa using howns.alloc_eq_none halloc⟩

theorem findPteCreate_yields (vpn : Nat) :
    Yields (t.findPteCreate s vpn) (high < low + (t.frames.length + rest.length) + 2)
      fun r => ∃ p nodes', r.1 = some (pteAddr p (Fin.ofNat 512 vpn).val) ∧
        TableInv r.2.1 r.2.2.bytes mapping nodes' ∧
        nodes' [Fin.ofNat 512 (vpn / 2 ^ 18), Fin.ofNat 512 (vpn / 2 ^ 9)] = some p ∧
        Grown low high rest 2 t s r.2.1 r.2.2 := by
  rw [findPteCreate, enumerated_indexes]
  rcases h.findPteCreateLoop_grown howns h.tree.root_eq (by simp) (by decide : (0 : Nat) ≠ 2)
      (Fin.ofNat 512 (vpn / 2 ^ 18)) _ with
    ⟨p₁, t₁, s₁, nodes₁, hloop₁, h₁, hp₁, hgrown₁⟩ | ⟨hloop₁, hfull⟩
  · rw [hloop₁]
    rcases h₁.findPteCreateLoop_grown hgrown₁.owns hp₁ (by simp) (by decide : (1 : Nat) ≠ 2)
        (Fin.ofNat 512 (vpn / 2 ^ 9)) _ with
      ⟨p₂, t₂, s₂, nodes₂, hloop₂, h₂, hp₂, hgrown₂⟩ | ⟨hloop₂, hfull⟩
    · rw [hloop₂]
      exact ⟨p₂, nodes₂, rfl, h₂, hp₂, hgrown₁.trans hgrown₂⟩
    · rw [hloop₂]
      have hlength := hgrown₁.length
      simp only [Yields]
      omega
  · rw [hloop₁]
    simp only [Yields]
    omega

/-- `map` returns unless the page is mapped or frames run out, and adds the page to the
mapping. -/
theorem map_yields (hvpn : vpn < 2 ^ 27) (hppn : ppn < 2 ^ 44) (flags : PTEFlags) :
    Yields (t.map s vpn ppn flags)
      (mapping vpn ≠ none ∨ high < low + (t.frames.length + rest.length) + 2)
      fun r => mapping vpn = none ∧ (∃ nodes', TableInv r.1 r.2.bytes
          (Function.update mapping vpn (some (ppn, flags))) nodes') ∧
        Grown low high rest 2 t s r.1 r.2 := by
  have hfind := (h.findPteCreate_yields howns vpn).mono
    (Or.inr : _ → mapping vpn ≠ none ∨ _) fun _ _ hpost => hpost
  refine hfind.bind ?_
  rintro ⟨pte, t', s'⟩ - ⟨p, nodes', hpte, h', hp, hgrown⟩
  obtain rfl : pte = some _ := hpte
  have hread := h'.readUsize_bottom hp
  rw [Nat.mod_eq_of_lt hvpn] at hread
  simp only [do_some]
  rw [hread]
  cases hmapped : mapping vpn with
  | none =>
    have hempty : (PageTableEntry.mk (leafEntry none).bits).isValid = false := by decide
    have hwrite := h'.write hvpn hp (e := some (ppn, flags)) (by simpa using hppn)
    have hbytes : SameOutside t'.frames s'.bytes (s'.bytes.writeUsize
        (pteAddr p (Fin.ofNat 512 vpn)) (leafEntry (some (ppn, flags))).bits) :=
      sameOutside_pte (h'.node_lt hp) (h'.mem_frames.mpr ⟨_, hp⟩) _ _
    simp only [hempty, Bool.false_eq_true, if_false, Yields]
    exact ⟨trivial, ⟨nodes', hwrite⟩, hgrown.owns, hgrown.root, hgrown.sub, hgrown.length,
      hgrown.bytes.trans hbytes (Subset.refl _)⟩
  | some e =>
    have hvalid : (PageTableEntry.mk (leafEntry (some e)).bits).isValid = true :=
      PageTableEntry.isValid_new (h'.ppn_lt hmapped) e.2
    simp only [hvalid, if_true, Yields]
    exact .inl (by simp)

end

end TableInv

/-- `unmap` writes one entry of the table. -/
theorem PageTable.unmap_keeps (h : TableInv t s.bytes mapping nodes)
    (hunmap : t.unmap s vpn = some s') :
    s'.allocator = s.allocator ∧ SameOutside t.frames s.bytes s'.bytes := by
  rw [unmap, h.findPte_eq] at hunmap
  simp only [do_eq_some_iff, Option.map_eq_some_iff, Option.ite_none_right_eq_some,
    Option.some.injEq] at hunmap
  obtain ⟨_, ⟨p, hp, rfl⟩, -, rfl⟩ := hunmap
  exact ⟨rfl, TableInv.sameOutside_pte (h.node_lt hp) (h.mem_frames.mpr ⟨_, hp⟩) _ _⟩

theorem PageTable.new_yields (howns : s.allocator.Owns low high rest) :
    Yields (new s) (high ≤ low + rest.length) fun r =>
      (∃ nodes, TableInv r.1 r.2.bytes (fun _ => none) nodes) ∧
        r.2.allocator.Owns low high (r.1.frames ++ rest) ∧ r.1.frames.length = 1 ∧
        SameOutside r.1.frames s.bytes r.2.bytes := by
  cases halloc : s.allocator.alloc with
  | none =>
    simp only [new, frameAlloc, halloc, do_none, Yields]
    exact howns.alloc_eq_none halloc
  | some r =>
    obtain ⟨frame, allocator⟩ := r
    have hnew : new s = some (⟨frame, [frame]⟩, ⟨s.bytes.clearFrame frame, allocator⟩) := by
      simp only [new, frameAlloc, halloc, do_some]
    rw [hnew]
    exact ⟨⟨_, tableInv_new hnew⟩, (howns.alloc halloc).2, rfl,
      s.bytes.sameOutside_clearFrame (StackFrameAllocator.alloc_lt halloc) (by simp)⟩

end RCore.Mm
