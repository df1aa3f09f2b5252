import RCore.Lib.RadixTree
import RCore.Mm.FrameAllocator
import RCore.Lib.Outcome

/-!
# Page tables

`PageTable` is translated from the source: its entries live in physical memory,
`find_pte_create` walks down the three levels and links in a cleared frame
wherever a level is missing.  The frames form a radix tree of depth three whose
payload is the abstract map from virtual page numbers to page numbers and flags
(`TableInv`).
-/

namespace RCore.Mm

open RCore.Lib.RadixTree RCore.Lib.LittleEndian Function List Option PhysPageNum

/-- Every one of the eight bits is a flag, so `from_bits` never fails. -/
abbrev PTEFlags := UInt8

namespace PTEFlags

/-- The entry is valid. -/
def V : PTEFlags := 1

theorem or_V_and_V (flags : PTEFlags) : (flags ||| V) &&& V = V := by
  apply UInt8.eq_of_toBitVec_eq
  rw [UInt8.toBitVec_and, UInt8.toBitVec_or]
  apply BitVec.eq_of_getLsbD_eq
  intro i hi
  rw [BitVec.getLsbD_and, BitVec.getLsbD_or]
  cases V.toBitVec.getLsbD i <;> simp

end PTEFlags

structure PageTableEntry where
  bits : Nat
  deriving DecidableEq

namespace PageTableEntry

def new (ppn : Nat) (flags : PTEFlags) : PageTableEntry := ⟨usizeShl ppn 10 ||| flags.toNat⟩

def empty : PageTableEntry := ⟨0⟩

def ppn (self : PageTableEntry) : Nat :=
  PhysPageNum.ofUsize (self.bits >>> 10 &&& ((1 <<< 44) - 1))

def flags (self : PageTableEntry) : PTEFlags := UInt8.ofNat self.bits

def isValid (self : PageTableEntry) : Bool := self.flags &&& PTEFlags.V != 0

end PageTableEntry

/-- The address of an entry of `get_pte_array`. -/
def pteAddr (ppn idx : Nat) : Nat := PhysPageNum.toPhysAddr ppn + 8 * idx

/-- `frames` lists the owned frames in the order of the vector. -/
structure PageTable where
  rootPpn : Nat
  frames : List Nat

namespace PageTable

def new (s : PhysMem) : Option (PageTable × PhysMem) := do
  let (frame, s) ← frameAlloc s
  some ({ rootPpn := frame, frames := [frame] }, s)

/-- The loop of `find_pte_create` over the enumerated indexes. -/
def findPteCreateLoop : List (Nat × Nat) → Nat → PageTable → PhysMem →
    Option (Option Nat × PageTable × PhysMem)
  | [], _, self, s => some (none, self, s)
  | (i, idx) :: rest, ppn, self, s =>
      let pte := pteAddr ppn idx
      if i = 2 then some (some pte, self, s)
      else if !(PageTableEntry.mk (s.bytes.readUsize pte)).isValid then do
        let (frame, s) ← frameAlloc s
        let bytes := s.bytes.writeUsize pte (PageTableEntry.new frame PTEFlags.V).bits
        findPteCreateLoop rest (PageTableEntry.mk (bytes.readUsize pte)).ppn
          { self with frames := self.frames ++ [frame] } { s with bytes := bytes }
      else findPteCreateLoop rest (PageTableEntry.mk (s.bytes.readUsize pte)).ppn self s

/-- The address of the entry, with the levels above it in place. -/
def findPteCreate (self : PageTable) (s : PhysMem) (vpn : Nat) :
    Option (Option Nat × PageTable × PhysMem) :=
  findPteCreateLoop ((VirtPageNum.indexes vpn).zipIdx.map fun p => (p.2, p.1)) self.rootPpn self s

/-- The loop of `find_pte` over the enumerated indexes. -/
def findPteLoop (bytes : Memory) : List (Nat × Nat) → Nat → Option Nat
  | [], _ => none
  | (i, idx) :: rest, ppn =>
      let pte := pteAddr ppn idx
      if i = 2 then some pte
      else if !(PageTableEntry.mk (bytes.readUsize pte)).isValid then none
      else findPteLoop bytes rest (PageTableEntry.mk (bytes.readUsize pte)).ppn

def findPte (self : PageTable) (bytes : Memory) (vpn : Nat) : Option Nat :=
  findPteLoop bytes ((VirtPageNum.indexes vpn).zipIdx.map fun p => (p.2, p.1)) self.rootPpn

def map (self : PageTable) (s : PhysMem) (vpn ppn : Nat) (flags : PTEFlags) :
    Option (PageTable × PhysMem) := do
  let (pte, self, s) ← self.findPteCreate s vpn
  let pte ← pte
  if (PageTableEntry.mk (s.bytes.readUsize pte)).isValid then none
  else
    some (self, { s with
      bytes := s.bytes.writeUsize pte (PageTableEntry.new ppn (flags ||| PTEFlags.V)).bits })

def unmap (self : PageTable) (s : PhysMem) (vpn : Nat) : Option PhysMem := do
  let pte ← self.findPte s.bytes vpn
  if (PageTableEntry.mk (s.bytes.readUsize pte)).isValid then
    some { s with bytes := s.bytes.writeUsize pte PageTableEntry.empty.bits }
  else none

def translate (self : PageTable) (bytes : Memory) (vpn : Nat) : Option PageTableEntry :=
  (self.findPte bytes vpn).map fun pte => ⟨bytes.readUsize pte⟩

/-- Page number and flags of the entry of a virtual page, if it is valid. -/
def translation (self : PageTable) (bytes : Memory) (vpn : Nat) : Option (Nat × PTEFlags) :=
  ((self.translate bytes vpn).filter PageTableEntry.isValid).map fun pte => (pte.ppn, pte.flags)

end PageTable

/-! ## Entries -/

variable {ppn : Nat}

namespace PageTableEntry

section

variable (h : ppn < 2 ^ 44) (flags : PTEFlags)
include h flags

theorem bits_new : (new ppn flags).bits = 1024 * ppn + flags.toNat := by
  have hflags : flags.toNat < 2 ^ 10 := Nat.lt_trans flags.toNat_lt (by omega)
  have hshl : usizeShl ppn 10 = ppn <<< 10 := by
    rw [usizeShl, Nat.shiftLeft_eq]
    omega
  change usizeShl ppn 10 ||| flags.toNat = _
  rw [hshl, ← Nat.shiftLeft_add_eq_or_of_lt hflags, Nat.shiftLeft_eq]
  omega

theorem bits_new_lt : (new ppn flags).bits < 2 ^ 64 := by
  have hflags := flags.toNat_lt
  rw [bits_new h]
  omega

theorem ppn_new : (new ppn flags).ppn = ppn := by
  have hflags := flags.toNat_lt
  have hmask : ((new ppn flags).bits >>> 10 &&& ((1 <<< 44) - 1)) = ppn := by
    rw [bits_new h, Nat.shiftRight_eq_div_pow]
    change _ &&& (2 ^ 44 - 1) = ppn
    rw [Nat.and_two_pow_sub_one_eq_mod]
    omega
  rw [PageTableEntry.ppn, hmask, ofUsize_eq]
  omega

theorem flags_new : (new ppn flags).flags = flags := by
  have hflags := flags.toNat_lt
  apply UInt8.toNat.inj
  rw [PageTableEntry.flags, bits_new h, UInt8.toNat_ofNat']
  omega

theorem isValid_new : (new ppn (flags ||| PTEFlags.V)).isValid = true := by
  rw [isValid, flags_new h, PTEFlags.or_V_and_V]
  rfl

end

end PageTableEntry

/-! ## The tree of frames -/

/-- Links are valid entries without other flags. -/
def tableFormat : Format Nat Nat where
  empty := PageTableEntry.empty.bits
  link := fun ppn => (PageTableEntry.new ppn PTEFlags.V).bits

/-- Entry `i` of the table in frame `ppn`. -/
def cell (bytes : Memory) (ppn : Nat) (i : Fin 512) : Nat := bytes.readUsize (4096 * ppn + 8 * i)

theorem pteAddr_eq (h : ppn < 2 ^ 44) (idx : Nat) : pteAddr ppn idx = 4096 * ppn + 8 * idx := by
  rw [pteAddr, toPhysAddr_eq h]

theorem cell_writeUsize_self (bytes : Memory) (ppn : Nat) (i : Fin 512) {v : Nat}
    (hv : v < 2 ^ 64) : cell (bytes.writeUsize (4096 * ppn + 8 * i) v) ppn i = v :=
  bytes.readUsize_writeUsize_self _ hv

theorem cell_writeUsize_of_ne (bytes : Memory) {ppn' : Nat} {i j : Fin 512} (v : Nat)
    (h : ppn' ≠ ppn ∨ j ≠ i) :
    cell (bytes.writeUsize (4096 * ppn + 8 * i) v) ppn' j = cell bytes ppn' j := by
  apply bytes.readUsize_writeUsize_of_disjoint
  have hi := i.isLt
  have hj := j.isLt
  rcases h with h | h
  · omega
  · have hne : j.val ≠ i.val := fun he => h (Fin.ext he)
    omega

theorem cell_clearFrame_self (bytes : Memory) (h : ppn < 2 ^ 44) (i : Fin 512) :
    cell (bytes.clearFrame ppn) ppn i = 0 := by
  apply leValue_eq_zero
  intro k hk
  have hi := i.isLt
  rw [Memory.clearFrame, toPhysAddr_eq h, pageSize, if_pos (by omega)]

theorem cell_clearFrame_of_ne (bytes : Memory) {ppn' : Nat} (h : ppn < 2 ^ 44) (hne : ppn' ≠ ppn)
    (i : Fin 512) : cell (bytes.clearFrame ppn) ppn' i = cell bytes ppn' i := by
  apply Memory.readUsize_congr
  intro k hk
  have hi := i.isLt
  rw [Memory.clearFrame, toPhysAddr_eq h, pageSize, if_neg (by omega)]

/-- The path of a virtual page number. -/
def pathOf (vpn : Nat) : List (Fin 512) :=
  [Fin.ofNat 512 (vpn / 2 ^ 18), Fin.ofNat 512 (vpn / 2 ^ 9), Fin.ofNat 512 vpn]

/-- The virtual page number of a path. -/
def vpnOf (path : List (Fin 512)) : Nat :=
  path.foldl (fun (vpn : Nat) (i : Fin 512) => 512 * vpn + i.val) 0

theorem vpnOf_pathOf (vpn : Nat) : vpnOf (pathOf vpn) = vpn % 2 ^ 27 := by
  simp only [vpnOf, pathOf, foldl_cons, foldl_nil, Fin.val_ofNat]
  omega

theorem pathOf_vpnOf {path : List (Fin 512)} (h : path.length = 3) : pathOf (vpnOf path) = path := by
  obtain ⟨i, j, k, rfl⟩ := length_eq_three.mp h
  have hi := i.isLt
  have hj := j.isLt
  have hk := k.isLt
  simp only [vpnOf, pathOf, foldl_cons, foldl_nil, List.cons.injEq, and_true]
  refine ⟨Fin.ext ?_, Fin.ext ?_, Fin.ext ?_⟩
  all_goals
    rw [Fin.val_ofNat]
    omega

theorem enumerated_indexes (vpn : Nat) :
    (VirtPageNum.indexes vpn).zipIdx.map (fun p => (p.2, p.1)) =
      [(0, (Fin.ofNat 512 (vpn / 2 ^ 18)).val), (1, (Fin.ofNat 512 (vpn / 2 ^ 9)).val),
        (2, (Fin.ofNat 512 vpn).val)] := by
  have hmask : ∀ v : Nat, v &&& 511 = v % 512 := fun v => Nat.and_two_pow_sub_one_eq_mod v 9
  simp only [VirtPageNum.indexes, zipIdx_cons, zipIdx_nil, map_cons, map_nil,
    hmask, Nat.shiftRight_eq_div_pow, Nat.div_div_eq_div_mul, Fin.val_ofNat]
  rfl

/-- The abstract map: page number and flags of every mapped virtual page number. -/
abbrev Mapping := Nat → Option (Nat × PTEFlags)

/-- The entry of a virtual page. -/
def leafEntry : Option (Nat × PTEFlags) → PageTableEntry
  | some (ppn, flags) => PageTableEntry.new ppn (flags ||| PTEFlags.V)
  | none => PageTableEntry.empty

/-- The payload of the tree. -/
def payload (mapping : Mapping) (path : List (Fin 512)) : Nat :=
  (leafEntry (mapping (vpnOf path))).bits

variable {vpn : Nat}

theorem payload_update {mapping : Mapping} (hvpn : vpn < 2 ^ 27) (e : Option (Nat × PTEFlags))
    {path : List (Fin 512)} (hlen : path.length = 3) :
    payload (update mapping vpn e) path =
      update (payload mapping) (pathOf vpn) (leafEntry e).bits path := by
  by_cases hpath : path = pathOf vpn
  · have hsame : vpnOf path = vpn := by
      rw [hpath, vpnOf_pathOf]
      exact Nat.mod_eq_of_lt hvpn
    rw [payload, hsame, update_self, hpath, update_self]
  · have hne : vpnOf path ≠ vpn := by
      rintro rfl
      exact hpath (pathOf_vpnOf hlen).symm
    rw [update_of_ne hpath, payload, update_of_ne hne, payload]

/-- The frames of the table form a tree that holds the mapping. -/
structure TableInv (t : PageTable) (bytes : Memory) (mapping : Mapping)
    (nodes : List (Fin 512) → Option Nat) : Prop where
  tree : Tree tableFormat 3 t.rootPpn (cell bytes) nodes (payload mapping)
  mem_frames : ∀ {p}, p ∈ t.frames ↔ ∃ path, nodes path = some p
  nodup : t.frames.Nodup
  frames_lt : ∀ p ∈ t.frames, p < 2 ^ 44
  ppn_lt : ∀ {vpn e}, mapping vpn = some e → e.1 < 2 ^ 44

variable {s : PhysMem} {e : Nat × PTEFlags}

namespace TableInv

variable {t : PageTable} {bytes : Memory} {mapping : Mapping}
  {nodes : List (Fin 512) → Option Nat} {path : List (Fin 512)} {p : Nat}

section

variable (h : TableInv t bytes mapping nodes)
include h

theorem node_lt (hp : nodes path = some p) : p < 2 ^ 44 :=
  h.frames_lt p (h.mem_frames.mpr ⟨path, hp⟩)

theorem readUsize_inner (hp : nodes path = some p) (hlen : path.length + 1 < 3) (i : Fin 512) :
    bytes.readUsize (pteAddr p i) = tableFormat.entry (nodes (path ++ [i])) := by
  rw [pteAddr_eq (h.node_lt hp)]
  exact h.tree.inner hp hlen i

theorem entry_inner (hp : nodes path = some p) (hlen : path.length + 1 < 3) (i : Fin 512) :
    (nodes (path ++ [i]) = none ∧
      (PageTableEntry.mk (bytes.readUsize (pteAddr p i))).isValid = false) ∨
    ∃ q, nodes (path ++ [i]) = some q ∧
      (PageTableEntry.mk (bytes.readUsize (pteAddr p i))).isValid = true ∧
      (PageTableEntry.mk (bytes.readUsize (pteAddr p i))).ppn = q := by
  rw [h.readUsize_inner hp hlen]
  cases hq : nodes (path ++ [i]) with
  | none => exact Or.inl ⟨rfl, rfl⟩
  | some q =>
    have hlt := h.node_lt hq
    exact Or.inr ⟨q, rfl, PageTableEntry.isValid_new hlt 0, PageTableEntry.ppn_new hlt _⟩

/-- `find_pte` returns the entry on the bottom level, if the levels above it exist. -/
theorem findPte_eq (vpn : Nat) :
    t.findPte bytes vpn =
      (nodes [Fin.ofNat 512 (vpn / 2 ^ 18), Fin.ofNat 512 (vpn / 2 ^ 9)]).map fun p =>
        pteAddr p (Fin.ofNat 512 vpn).val := by
  rw [PageTable.findPte, enumerated_indexes]
  simp only [PageTable.findPteLoop]
  rcases h.entry_inner h.tree.root_eq (by simp) (Fin.ofNat 512 (vpn / 2 ^ 18)) with
    ⟨hq, hvalid⟩ | ⟨q, hq, hvalid, hppn⟩
  · rw [nil_append] at hq
    simp only [hvalid]
    have hnone := h.tree.closed hq (i := Fin.ofNat 512 (vpn / 2 ^ 9))
    rw [singleton_append] at hnone
    rw [hnone]
    rfl
  · rw [nil_append] at hq
    simp only [hvalid, hppn]
    rcases h.entry_inner hq (by simp) (Fin.ofNat 512 (vpn / 2 ^ 9)) with
      ⟨hq', hvalid'⟩ | ⟨q', hq', hvalid', hppn'⟩
    · rw [singleton_append] at hq'
      simp only [hvalid', hq']
      rfl
    · rw [singleton_append] at hq'
      simp only [hvalid', hppn', hq']
      rfl

theorem readUsize_bottom
    (hp : nodes [Fin.ofNat 512 (vpn / 2 ^ 18), Fin.ofNat 512 (vpn / 2 ^ 9)] = some p) :
    bytes.readUsize (pteAddr p (Fin.ofNat 512 vpn).val) =
      (leafEntry (mapping (vpn % 2 ^ 27))).bits := by
  rw [pteAddr_eq (h.node_lt hp), ← vpnOf_pathOf]
  exact h.tree.bottom hp rfl (Fin.ofNat 512 vpn)

/-- `translate` returns the entry of the mapping, if the levels above it exist. -/
theorem translate_eq (vpn : Nat) :
    t.translate bytes vpn =
      (nodes [Fin.ofNat 512 (vpn / 2 ^ 18), Fin.ofNat 512 (vpn / 2 ^ 9)]).map fun _ =>
        leafEntry (mapping (vpn % 2 ^ 27)) := by
  rw [PageTable.translate, h.findPte_eq, Option.map_map]
  cases hp : nodes [Fin.ofNat 512 (vpn / 2 ^ 18), Fin.ofNat 512 (vpn / 2 ^ 9)] with
  | none => rw [map_none, map_none]
  | some p =>
    simp only [map_some, Function.comp_apply, h.readUsize_bottom hp]

theorem exists_node (he : mapping (vpn % 2 ^ 27) = some e) :
    ∃ p, nodes [Fin.ofNat 512 (vpn / 2 ^ 18), Fin.ofNat 512 (vpn / 2 ^ 9)] = some p := by
  rw [← ne_none_iff_exists']
  intro hnone
  have hmissing : (leafEntry (mapping (vpnOf (pathOf vpn)))).bits = PageTableEntry.empty.bits :=
    h.tree.missing hnone rfl (Fin.ofNat 512 vpn)
  rw [vpnOf_pathOf, he] at hmissing
  have hempty : PageTableEntry.new e.1 (e.2 ||| PTEFlags.V) = PageTableEntry.empty :=
    congrArg PageTableEntry.mk hmissing
  have hvalid := PageTableEntry.isValid_new (h.ppn_lt he) e.2
  rw [hempty] at hvalid
  exact absurd hvalid (by decide)

theorem translate_of_mapped (he : mapping (vpn % 2 ^ 27) = some e) :
    t.translate bytes vpn = some (PageTableEntry.new e.1 (e.2 ||| PTEFlags.V)) := by
  obtain ⟨p, hp⟩ := h.exists_node he
  rw [h.translate_eq, hp, he]
  rfl

theorem isValid_iff :
    (∃ pte, t.translate bytes vpn = some pte ∧ pte.isValid = true) ↔
      mapping (vpn % 2 ^ 27) ≠ none := by
  constructor
  · rintro ⟨pte, hpte, hvalid⟩ hnone
    rw [h.translate_eq, hnone] at hpte
    obtain ⟨_, -, rfl⟩ := map_eq_some_iff.mp hpte
    exact absurd hvalid (by decide)
  · intro hmapped
    obtain ⟨e, he⟩ := ne_none_iff_exists'.mp hmapped
    exact ⟨_, h.translate_of_mapped he, PageTableEntry.isValid_new (h.ppn_lt he) e.2⟩

theorem translation_eq (vpn : Nat) :
    t.translation bytes vpn =
      (mapping (vpn % 2 ^ 27)).map fun e => (e.1, e.2 ||| PTEFlags.V) := by
  rw [PageTable.translation, PageTable.translate, h.findPte_eq, Option.map_map]
  cases hp : nodes [Fin.ofNat 512 (vpn / 2 ^ 18), Fin.ofNat 512 (vpn / 2 ^ 9)] with
  | none =>
    cases he : mapping (vpn % 2 ^ 27) with
    | none => rfl
    | some e =>
      obtain ⟨p, hp'⟩ := h.exists_node he
      rw [hp] at hp'
      cases hp'
  | some p =>
    simp only [map_some, Function.comp_apply, h.readUsize_bottom hp]
    cases he : mapping (vpn % 2 ^ 27) with
    | none => rfl
    | some e =>
      have hlt := h.ppn_lt he
      have hentry : PageTableEntry.mk (leafEntry (some e)).bits =
        PageTableEntry.new e.1 (e.2 ||| PTEFlags.V) := rfl
      rw [hentry, filter_some, PageTableEntry.isValid_new hlt]
      simp only [if_true, map_some, PageTableEntry.ppn_new hlt, PageTableEntry.flags_new hlt]

/-- A cleared frame is linked in below a node. -/
theorem link (hp : nodes path = some p) (hlen : path.length + 1 < 3) {i : Fin 512}
    (hfree : nodes (path ++ [i]) = none) {q : Nat} (hq : q < 2 ^ 44) (hfresh : q ∉ t.frames) :
    TableInv { t with frames := t.frames ++ [q] }
      ((bytes.clearFrame q).writeUsize (pteAddr p i) (PageTableEntry.new q PTEFlags.V).bits)
      mapping (update nodes (path ++ [i]) (some q)) := by
  have hnode : ∀ {path' p'}, nodes path' = some p' → p' ≠ q := by
    rintro path' p' hp' rfl
    exact hfresh (h.mem_frames.mpr ⟨path', hp'⟩)
  rw [pteAddr_eq (h.node_lt hp)]
  refine ⟨h.tree.addNode hp hlen hfree (fun path' hp' => hnode hp' rfl) ?_ ?_ ?_, ?_, ?_, ?_,
    h.ppn_lt⟩
  · intro j
    rw [cell_writeUsize_of_ne _ _ (Or.inl (hnode hp).symm), cell_clearFrame_self _ hq]
    rfl
  · exact cell_writeUsize_self _ _ _ (PageTableEntry.bits_new_lt hq _)
  · intro path' p' hp' j hne
    rw [cell_writeUsize_of_ne _ _ hne, cell_clearFrame_of_ne _ hq (hnode hp')]
  · intro p'
    rw [mem_append, mem_singleton, h.mem_frames]
    constructor
    · rintro (⟨path', hp'⟩ | rfl)
      · refine ⟨path', ?_⟩
        rw [update_of_ne, hp']
        rintro rfl
        rw [hfree] at hp'
        cases hp'
      · exact ⟨path ++ [i], update_self _ _ _⟩
    · rintro ⟨path', hp'⟩
      by_cases hnew : path' = path ++ [i]
      · rw [hnew, update_self, Option.some.injEq] at hp'
        exact Or.inr hp'.symm
      · rw [update_of_ne hnew] at hp'
        exact Or.inl ⟨path', hp'⟩
  · rw [nodup_append]
    refine ⟨h.nodup, by simp, ?_⟩
    rintro a ha b hb rfl
    rw [mem_singleton] at hb
    exact hfresh (hb ▸ ha)
  · intro p' hp'
    rcases mem_append.mp hp' with hp' | hp'
    · exact h.frames_lt p' hp'
    · rw [mem_singleton] at hp'
      rw [hp']
      exact hq

theorem write (hvpn : vpn < 2 ^ 27)
    (hp : nodes [Fin.ofNat 512 (vpn / 2 ^ 18), Fin.ofNat 512 (vpn / 2 ^ 9)] = some p)
    {e : Option (Nat × PTEFlags)} (he : ∀ x ∈ e, x.1 < 2 ^ 44) :
    TableInv t (bytes.writeUsize (pteAddr p (Fin.ofNat 512 vpn).val) (leafEntry e).bits)
      (update mapping vpn e) nodes := by
  have hbits : (leafEntry e).bits < 2 ^ 64 := by
    cases e with
    | none => exact Nat.two_pow_pos 64
    | some x => exact PageTableEntry.bits_new_lt (he x rfl) _
  rw [pteAddr_eq (h.node_lt hp)]
  have htree := h.tree.setLeaf hp rfl (cell_writeUsize_self bytes p (Fin.ofNat 512 vpn) hbits)
    (fun _ j hne => cell_writeUsize_of_ne bytes _ hne)
  refine ⟨htree.congr_leaf fun path hlen => payload_update hvpn e hlen, h.mem_frames, h.nodup,
    h.frames_lt, ?_⟩
  intro vpn' x hx
  by_cases hsame : vpn' = vpn
  · rw [hsame, update_self] at hx
    exact he x hx
  · rw [update_of_ne hsame] at hx
    exact h.ppn_lt hx

end

theorem sameOutside_pte (hlt : p < 2 ^ 44) {frames : List Nat} (hp : p ∈ frames) (i : Fin 512)
    (v : Nat) : Memory.SameOutside frames bytes (bytes.writeUsize (pteAddr p i) v) := by
  have hi := i.isLt
  rw [pteAddr_eq hlt]
  exact bytes.sameOutside_writeUsize v hp (by omega) (by omega)

section

variable (h : TableInv t s.bytes mapping nodes)
include h

/-- One round of `find_pte_create` above the bottom level: the child is there, or a new
frame becomes the child, or there is no frame left. -/
theorem findPteCreateLoop_cases (hp : nodes path = some p) (hlen : path.length + 1 < 3) {k : Nat}
    (hk : k ≠ 2) (i : Fin 512) (rest : List (Nat × Nat))
    (hfresh : ∀ q a, s.allocator.alloc = some (q, a) → q ∉ t.frames) :
    (∃ q, nodes (path ++ [i]) = some q ∧
      PageTable.findPteCreateLoop ((k, i.val) :: rest) p t s =
        PageTable.findPteCreateLoop rest q t s) ∨
    (∃ q a bytes, s.allocator.alloc = some (q, a) ∧
      PageTable.findPteCreateLoop ((k, i.val) :: rest) p t s =
        PageTable.findPteCreateLoop rest q { t with frames := t.frames ++ [q] } ⟨bytes, a⟩ ∧
      TableInv { t with frames := t.frames ++ [q] } bytes mapping
        (update nodes (path ++ [i]) (some q)) ∧
      Memory.SameOutside (t.frames ++ [q]) s.bytes bytes) ∨
    (s.allocator.alloc = none ∧
      PageTable.findPteCreateLoop ((k, i.val) :: rest) p t s = none) := by
  rw [PageTable.findPteCreateLoop, if_neg hk]
  rcases h.entry_inner hp hlen i with ⟨hfree, hvalid⟩ | ⟨q, hq, hvalid, hppn⟩
  · cases halloc : s.allocator.alloc with
    | none => exact .inr (.inr ⟨rfl, by simp [hvalid, frameAlloc, halloc]⟩)
    | some r =>
      obtain ⟨frame, allocator⟩ := r
      have hlt := StackFrameAllocator.alloc_lt halloc
      have hpt : p ∈ t.frames ++ [frame] :=
        mem_append_left _ (h.mem_frames.mpr ⟨path, hp⟩)
      have hppn : ∀ bytes : Memory, (PageTableEntry.mk ((bytes.writeUsize (pteAddr p i)
          (PageTableEntry.new frame PTEFlags.V).bits).readUsize (pteAddr p i))).ppn = frame := by
        intro bytes
        rw [Memory.readUsize_writeUsize_self _ _ (PageTableEntry.bits_new_lt hlt _)]
        exact PageTableEntry.ppn_new hlt _
      refine .inr (.inl ⟨frame, allocator, _, rfl, ?_, h.link hp hlen hfree hlt (hfresh _ _ halloc),
        (s.bytes.sameOutside_clearFrame hlt (by simp)).trans
          (sameOutside_pte (h.node_lt hp) hpt i _) (Subset.refl _)⟩)
      simp only [hvalid, frameAlloc, halloc, Bool.not_false, if_true, do_some]
      rw [hppn]
  · exact .inl ⟨q, hq, by simp [hvalid, hppn]⟩

/-- One round of `find_pte_create` above the bottom level when there are frames left. -/
theorem findPteCreateLoop_level (hp : nodes path = some p) (hlen : path.length + 1 < 3) {k : Nat}
    (hk : k ≠ 2) (i : Fin 512) (rest : List (Nat × Nat)) {n : Nat}
    (hgives : s.allocator.Gives t.frames (n + 1)) :
    ∃ q t' s' nodes', PageTable.findPteCreateLoop ((k, i.val) :: rest) p t s =
        PageTable.findPteCreateLoop rest q t' s' ∧
      TableInv t' s'.bytes mapping nodes' ∧ nodes' (path ++ [i]) = some q ∧
      s'.allocator.Gives t'.frames n := by
  have hpred := hgives.pred
  obtain ⟨frame, allocator, halloc, hfresh, hnext⟩ := hgives
  rcases h.findPteCreateLoop_cases hp hlen hk i rest (by simpa [halloc] using hfresh) with
    ⟨q, hq, hloop⟩ | ⟨q, a, bytes, halloc', hloop, hinv, -⟩ | ⟨hnone, -⟩
  · exact ⟨q, t, s, nodes, hloop, h, hq, hpred⟩
  · rw [halloc, Option.some.injEq, Prod.mk.injEq] at halloc'
    obtain ⟨rfl, rfl⟩ := halloc'
    refine ⟨frame, _, _, _, hloop, hinv, update_self _ _ _, hnext.mono ?_⟩
    intro p' hp'
    rcases mem_append.mp hp' with hp' | hp'
    · exact mem_cons_of_mem _ hp'
    · exact mem_singleton.mp hp' ▸ mem_cons_self
  · rw [halloc] at hnone
    cases hnone

/-- `find_pte_create` returns the entry on the bottom level; the mapping stays. -/
theorem findPteCreate_spec (vpn : Nat) (hgives : s.allocator.Gives t.frames 2) :
    ∃ p t' s' nodes', t.findPteCreate s vpn =
        some (some (pteAddr p (Fin.ofNat 512 vpn).val), t', s') ∧
      TableInv t' s'.bytes mapping nodes' ∧
      nodes' [Fin.ofNat 512 (vpn / 2 ^ 18), Fin.ofNat 512 (vpn / 2 ^ 9)] = some p := by
  rw [PageTable.findPteCreate, enumerated_indexes]
  obtain ⟨p₁, t₁, s₁, nodes₁, hloop₁, h₁, hp₁, hgives₁⟩ := h.findPteCreateLoop_level
    h.tree.root_eq (by simp) (by decide : (0 : Nat) ≠ 2) (Fin.ofNat 512 (vpn / 2 ^ 18)) _ hgives
  obtain ⟨p₂, t₂, s₂, nodes₂, hloop₂, h₂, hp₂, -⟩ := h₁.findPteCreateLoop_level
    hp₁ (by simp) (by decide : (1 : Nat) ≠ 2) (Fin.ofNat 512 (vpn / 2 ^ 9)) _ hgives₁
  exact ⟨p₂, t₂, s₂, nodes₂, hloop₁.trans (hloop₂.trans rfl), h₂, hp₂⟩

/-- `map` of an unmapped page returns, and adds the page to the mapping. -/
theorem map_spec (hvpn : vpn < 2 ^ 27) (hppn : ppn < 2 ^ 44) (flags : PTEFlags)
    (hfree : mapping vpn = none) (hgives : s.allocator.Gives t.frames 2) :
    ∃ t' s' nodes', t.map s vpn ppn flags = some (t', s') ∧
      TableInv t' s'.bytes (update mapping vpn (some (ppn, flags))) nodes' := by
  obtain ⟨p, t', s', nodes', hfind, h', hp⟩ := h.findPteCreate_spec vpn hgives
  have hread := h'.readUsize_bottom hp
  rw [Nat.mod_eq_of_lt hvpn, hfree] at hread
  have hwrite := h'.write hvpn hp (e := some (ppn, flags)) (by simpa using hppn)
  refine ⟨t', { s' with bytes := _ }, nodes', ?_, hwrite⟩
  rw [PageTable.map, hfind]
  simp only [do_some, hread]
  rfl

/-- `unmap` of a mapped page returns, and removes the page from the mapping. -/
theorem unmap_spec (hvpn : vpn < 2 ^ 27) (he : mapping vpn = some e) :
    ∃ s', t.unmap s vpn = some s' ∧
      TableInv t s'.bytes (update mapping vpn none) nodes := by
  have hmod : vpn % 2 ^ 27 = vpn := Nat.mod_eq_of_lt hvpn
  obtain ⟨p, hp⟩ := h.exists_node (hmod.symm ▸ he)
  have hread := h.readUsize_bottom hp
  rw [hmod, he] at hread
  have hvalid : (PageTableEntry.mk (leafEntry (some e)).bits).isValid = true :=
    PageTableEntry.isValid_new (h.ppn_lt he) e.2
  have hwrite := h.write hvpn hp (e := none) (by simp)
  refine ⟨{ s with bytes := _ }, ?_, hwrite⟩
  rw [PageTable.unmap, h.findPte_eq, hp]
  simp only [map_some, do_some, hread, hvalid, if_true]
  rfl

end

theorem outside (h : TableInv t bytes mapping nodes) {bytes' : Memory}
    (hsame : ∀ p ∈ t.frames, ∀ x, 4096 * p ≤ x → x < 4096 * p + 4096 → bytes' x = bytes x) :
    TableInv t bytes' mapping nodes := by
  refine ⟨h.tree.congr ?_, h.mem_frames, h.nodup, h.frames_lt, h.ppn_lt⟩
  intro path p hp i
  apply Memory.readUsize_congr
  intro k hk
  have hi := i.isLt
  exact hsame p (h.mem_frames.mpr ⟨path, hp⟩) _ (by omega) (by omega)

theorem congr (h : TableInv t bytes mapping nodes) {bytes' : Memory}
    (hsame : ∀ x, x / 4096 ∈ t.frames → bytes' x = bytes x) : TableInv t bytes' mapping nodes := by
  refine h.outside fun p hp x hlow hhigh => hsame x ?_
  rw [(by omega : x / 4096 = p)]
  exact hp

end TableInv

/-- `PageTable::new` makes a table in which nothing is mapped. -/
theorem tableInv_new {s' : PhysMem} {t : PageTable} (h : PageTable.new s = some (t, s')) :
    TableInv t s'.bytes (fun _ => none) (rootOnly t.rootPpn) := by
  rw [PageTable.new, frameAlloc] at h
  cases halloc : s.allocator.alloc with
  | none => simp [halloc] at h
  | some r =>
    obtain ⟨frame, allocator⟩ := r
    simp only [halloc, do_some, Option.some.injEq, Prod.mk.injEq] at h
    obtain ⟨rfl, rfl⟩ := h
    have hlt := StackFrameAllocator.alloc_lt halloc
    have hempty : ∀ i, cell (s.bytes.clearFrame frame) frame i = tableFormat.empty :=
      cell_clearFrame_self s.bytes hlt
    have htree := Tree.single (show 0 < 3 by decide) hempty
    have hleaf : ∀ path : List (Fin 512), path.length = 3 →
        payload (fun _ => none) path = tableFormat.empty := fun _ _ => rfl
    dsimp only
    refine ⟨htree.congr_leaf hleaf, ?_, by simp, ?_, ?_⟩
    · intro p
      rw [mem_singleton]
      constructor
      · rintro rfl
        exact ⟨[], rfl⟩
      · rintro ⟨path, hp⟩
        cases path with
        | nil => simpa [rootOnly] using hp.symm
        | cons i path => simp [rootOnly] at hp
    · intro p hp
      rw [mem_singleton.mp hp]
      exact hlt
    · intro vpn e he
      cases he

/-! ## Runs -/

/-- A table made by `PageTable::new`, after any number of calls of `map` and `unmap`, with the
map that they describe.  Between the calls the allocator and all memory outside the frames of
the table may change in any way. -/
inductive PageTable.Reaches : PageTable → PhysMem → Mapping → Prop where
  | new {t : PageTable} {s s' : PhysMem} (hnew : PageTable.new s = some (t, s')) :
      Reaches t s' fun _ => none
  | map {t t' : PageTable} {s s' : PhysMem} {mapping : Mapping} {vpn ppn : Nat}
      {flags : PTEFlags} (h : Reaches t s mapping) (hvpn : vpn < 2 ^ 27) (hppn : ppn < 2 ^ 44)
      (hfree : mapping vpn = none) (hgives : s.allocator.Gives t.frames 2)
      (hmap : t.map s vpn ppn flags = some (t', s')) :
      Reaches t' s' (Function.update mapping vpn (some (ppn, flags)))
  | unmap {t : PageTable} {s s' : PhysMem} {mapping : Mapping} {vpn : Nat}
      (h : Reaches t s mapping) (hvpn : vpn < 2 ^ 27) (hmapped : mapping vpn ≠ none)
      (hunmap : t.unmap s vpn = some s') : Reaches t s' (Function.update mapping vpn none)
  | outside {t : PageTable} {s s' : PhysMem} {mapping : Mapping} (h : Reaches t s mapping)
      (hsame : ∀ p ∈ t.frames, ∀ x, 4096 * p ≤ x → x < 4096 * p + 4096 → s'.bytes x = s.bytes x) :
      Reaches t s' mapping

theorem PageTable.Reaches.tableInv {t : PageTable} {mapping : Mapping} (h : Reaches t s mapping) :
    ∃ nodes, TableInv t s.bytes mapping nodes := by
  induction h with
  | new hnew => exact ⟨_, tableInv_new hnew⟩
  | map _ hvpn hppn hfree hgives hmap ih =>
    obtain ⟨nodes, ih⟩ := ih
    obtain ⟨t', s', nodes', hmap', hinv⟩ := ih.map_spec hvpn hppn _ hfree hgives
    rw [hmap', Option.some.injEq, Prod.mk.injEq] at hmap
    obtain ⟨rfl, rfl⟩ := hmap
    exact ⟨nodes', hinv⟩
  | unmap _ hvpn hmapped hunmap ih =>
    obtain ⟨nodes, ih⟩ := ih
    obtain ⟨e, he⟩ := ne_none_iff_exists'.mp hmapped
    obtain ⟨s', hunmap', hinv⟩ := ih.unmap_spec hvpn he
    rw [hunmap', Option.some.injEq] at hunmap
    subst hunmap
    exact ⟨nodes, hinv⟩
  | outside _ hsame ih =>
    obtain ⟨nodes, ih⟩ := ih
    exact ⟨nodes, ih.outside hsame⟩

/-- **A page table represents its map.**  In every state of a run the valid entry of every
virtual page number is the one last given to `map`, with `V` set, and there is none if the
page is not mapped; the frames of the table are pairwise different; and the next `map` of an
unmapped page or `unmap` of a mapped one returns, its assertion included, and changes the
translation of no other page. -/
theorem page_table_represents_map {t : PageTable} {s : PhysMem} {mapping : Mapping}
    (h : PageTable.Reaches t s mapping) :
    (∀ vpn, t.translation s.bytes vpn =
      (mapping (vpn % 2 ^ 27)).map fun e => (e.1, e.2 ||| PTEFlags.V)) ∧
    t.frames.Nodup ∧
    (∀ vpn ppn flags, vpn < 2 ^ 27 → ppn < 2 ^ 44 → mapping vpn = none →
      s.allocator.Gives t.frames 2 → ∃ t' s', t.map s vpn ppn flags = some (t', s') ∧
        ∀ v, v % 2 ^ 27 ≠ vpn → t'.translation s'.bytes v = t.translation s.bytes v) ∧
    (∀ vpn, vpn < 2 ^ 27 → mapping vpn ≠ none → ∃ s', t.unmap s vpn = some s' ∧
        ∀ v, v % 2 ^ 27 ≠ vpn → t.translation s'.bytes v = t.translation s.bytes v) := by
  obtain ⟨nodes, hinv⟩ := h.tableInv
  refine ⟨hinv.translation_eq, hinv.nodup, ?_, ?_⟩
  · intro vpn ppn flags hvpn hppn hfree hgives
    obtain ⟨t', s', nodes', hmap, hinv'⟩ := hinv.map_spec hvpn hppn flags hfree hgives
    refine ⟨t', s', hmap, fun v hv => ?_⟩
    rw [hinv'.translation_eq, hinv.translation_eq, update_of_ne hv]
  · intro vpn hvpn hmapped
    obtain ⟨e, he⟩ := Option.ne_none_iff_exists'.mp hmapped
    obtain ⟨s', hunmap, hinv'⟩ := hinv.unmap_spec hvpn he
    refine ⟨s', hunmap, fun v hv => ?_⟩
    rw [hinv'.translation_eq, hinv.translation_eq, update_of_ne hv]

/-- Two pages under the same node of a new table. -/
theorem page_table_represents_map_pages :
    ∃ t s mapping, PageTable.Reaches t s mapping ∧
      t.translation s.bytes 5 = some (0x80700, 0x17) ∧ t.translation s.bytes 6 = none := by
  have hnew : PageTable.new ⟨fun _ => 7, ⟨100, 200, []⟩⟩ = some _ := rfl
  have h₀ := PageTable.Reaches.new hnew
  have hgives : StackFrameAllocator.Gives ⟨101, 200, []⟩ [100] 2 :=
    ⟨101, _, rfl, by decide, 102, _, rfl, by decide, trivial⟩
  obtain ⟨t, s, hmap, -⟩ := (page_table_represents_map h₀).2.2.1 5 0x80700 0x16 (by decide)
    (by decide) rfl hgives
  have h₁ := h₀.map (by decide) (by decide) rfl hgives hmap
  obtain ⟨htranslation, -⟩ := page_table_represents_map h₁
  exact ⟨t, s, _, h₁, htranslation 5, htranslation 6⟩

end RCore.Mm
