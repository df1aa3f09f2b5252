import RCore.EasyFs.Layout

/-!
# Records in blocks

What is stored in a block is what is read back: for the super block, for the
four inode records that share a block, and for directory entries and their
names.
-/

namespace RCore.EasyFs

open RCore.Lib.LittleEndian RCore.Lib.LockedStore List Prog Block

/-! ## Super block -/

namespace SuperBlock

variable {k off : Nat}

theorem word_toBlock (self : SuperBlock) (b : Block) (hk : k < 6) :
    (self.toBlock b).word k = self.field k := by
  apply u32At_eq
  intro i hi
  have hbyte := byte_patch_inside b (fun i => leByte (self.field (i / 4)).toNat (i % 4))
    (show 4 * k + i < 24 by omega) (show 0 + 24 ≤ 512 by omega)
  have hdiv : (4 * k + i) / 4 = k := by omega
  have hmod : (4 * k + i) % 4 = i := by omega
  rw [Nat.zero_add, hdiv, hmod] at hbyte
  exact hbyte

theorem ofBlock_toBlock (self : SuperBlock) (b : Block) : ofBlock (self.toBlock b) = self := by
  simp [ofBlock, word_toBlock, field]

end SuperBlock

/-! ## Disk inodes -/

namespace DiskInode

/-- The type byte of a record is one of the two discriminants. -/
def TypeOk (b : Block) (off : Nat) : Prop := b.byte (off + 124) = 0 ∨ b.byte (off + 124) = 1

@[ext] theorem ext_field {d e : DiskInode} (hfield : ∀ k < 31, d.field k = e.field k)
    (htype : d.type_ = e.type_) : d = e := by
  have hsize : d.size = e.size := by simpa [field] using hfield 0 (by omega)
  have hindirect1 : d.indirect1 = e.indirect1 := by simpa [field] using hfield 29 (by omega)
  have hindirect2 : d.indirect2 = e.indirect2 := by simpa [field] using hfield 30 (by omega)
  have hdirect : d.direct = e.direct := by
    apply Vector.ext
    intro i hi
    have hi' : i < 28 := hi
    have h := hfield (i + 1) (by omega)
    have hle : i + 1 ≤ 28 := by omega
    simpa [field, hle, directAt, hi] using h
  cases d
  cases e
  simp_all

theorem field_ofBlock (b : Block) (off : Nat) (hk : k < 31) :
    (ofBlock b off).field k = b.u32At (off + 4 * k) := by
  unfold field
  split
  · rename_i h0
    rw [h0]
    rfl
  · split
    · rename_i h0 hle
      have hlt : k - 1 < inodeDirectCount := by
        unfold inodeDirectCount
        omega
      have hk' : k - 1 + 1 = k := by omega
      simp [directAt, ofBlock, hlt, hk']
    · split
      · rename_i h29
        rw [h29]
        rfl
      · have h30 : k = 30 := by omega
        rw [h30]
        rfl

theorem u32At_toBlock (self : DiskInode) (b : Block) (hoff : off + 128 ≤ 512) (hk : k < 31) :
    (self.toBlock b off).u32At (off + 4 * k) = self.field k := by
  apply u32At_eq
  intro i hi
  have hbyte := byte_patch_inside b self.encodeByte (show 4 * k + i < 125 by omega)
    (show off + 125 ≤ 512 by omega)
  have hdiv : (4 * k + i) / 4 = k := by omega
  have hmod : (4 * k + i) % 4 = i := by omega
  have hlt : 4 * k + i < 124 := by omega
  rw [encodeByte, if_pos hlt, hdiv, hmod] at hbyte
  rw [Nat.add_assoc]
  exact hbyte

theorem typeByte_toBlock (self : DiskInode) (b : Block) (hoff : off + 128 ≤ 512) :
    (self.toBlock b off).byte (off + 124) = self.encodeByte 124 :=
  byte_patch_inside b self.encodeByte (by omega) (by omega)

theorem encodeByte_type (self : DiskInode) :
    self.encodeByte 124 = if self.type_ = .directory then 1 else 0 := by
  have hlt : ¬124 < 124 := by omega
  rw [encodeByte, if_neg hlt]
  cases self.type_ with
  | file => rfl
  | directory => rfl

theorem typeOk_toBlock (self : DiskInode) (b : Block) (hoff : off + 128 ≤ 512) :
    TypeOk (self.toBlock b off) off := by
  rw [TypeOk, typeByte_toBlock self b hoff, encodeByte_type]
  split
  · exact Or.inr rfl
  · exact Or.inl rfl

@[simp] theorem ofBlock_toBlock (self : DiskInode) (b : Block) {off : Nat}
    (hoff : off + 128 ≤ 512) : ofBlock (self.toBlock b off) off = self := by
  apply ext_field
  · intro k hk
    rw [field_ofBlock _ _ hk, u32At_toBlock self b hoff hk]
  · change (if (self.toBlock b off).byte (off + 124) = 1 then DiskInodeType.directory
      else DiskInodeType.file) = self.type_
    rw [typeByte_toBlock self b hoff, encodeByte_type]
    cases self.type_ with
    | file => rfl
    | directory => rfl

theorem ofBlock_toBlock_of_ne (self : DiskInode) (b : Block) {off' : Nat}
    (hoff' : off' + 128 ≤ 512) (hne : off' + 128 ≤ off ∨ off + 128 ≤ off') :
    ofBlock (self.toBlock b off) off' = ofBlock b off' := by
  apply ext_field
  · intro k hk
    rw [field_ofBlock _ _ hk, field_ofBlock _ _ hk]
    exact u32At_patch_outside b _ (by omega) (by omega)
  · have hbyte : (self.toBlock b off).byte (off' + 124) = b.byte (off' + 124) :=
      byte_patch_outside b _ (by omega) (by omega)
    simp [ofBlock, hbyte]

theorem typeOk_toBlock_of_ne (self : DiskInode) (b : Block) {off' : Nat}
    (hoff' : off' + 128 ≤ 512) (hne : off' + 128 ≤ off ∨ off + 128 ≤ off') :
    TypeOk (self.toBlock b off) off' ↔ TypeOk b off' := by
  have hbyte : (self.toBlock b off).byte (off' + 124) = b.byte (off' + 124) :=
    byte_patch_outside b _ (by omega) (by omega)
  rw [TypeOk, TypeOk, hbyte]

theorem toBlock_ofBlock (b : Block) (htype : TypeOk b off) : (ofBlock b off).toBlock b off = b := by
  apply patch_self
  intro i hi
  unfold encodeByte
  split
  · rw [field_ofBlock _ _ (by omega), leByte_u32At _ _ (Nat.mod_lt _ (by omega))]
    congr 1
    omega
  · have hi124 : i = 124 := by omega
    subst hi124
    rcases htype with h | h <;> simp [ofBlock, h]

end DiskInode

/-! ## Directory entries -/

namespace DirEntry

/-- The entry that `DirEntry::new` builds for a name that fits. -/
def ofName (name : String) (inodeNumber : UInt32) : DirEntry where
  name := Vector.ofFn fun i => (strBytes name)[i.val]?.getD 0
  inodeNumber := inodeNumber

@[simp] theorem length_asBytes (self : DirEntry) : self.asBytes.length = 32 := by
  rw [asBytes, length_append, Vector.length_toList, length_map, length_range]
  rfl

theorem ofBytes_asBytes (self : DirEntry) : ofBytes self.asBytes = self := by
  have hname : (ofBytes self.asBytes).name = self.name := by
    apply Vector.ext
    intro i hi
    have hi' : i < self.name.toList.length := by simpa using hi
    simp [ofBytes, asBytes, getElem?_append_left hi', hi]
  have hnumber : (ofBytes self.asBytes).inodeNumber = self.inodeNumber := by
    have hbytes : ∀ i < 4, self.asBytes[28 + i]?.getD 0 = leByte self.inodeNumber.toNat i := by
      intro i hi
      have hlen : self.name.toList.length = 28 := Vector.length_toList
      rw [asBytes, getElem?_append_right (by omega), hlen, Nat.add_sub_cancel_left]
      simp [hi]
    rw [ofBytes, leValue_congr hbytes, leValue_leByte (by simpa using self.inodeNumber.toNat_lt)]
    exact UInt32.ofNat_toNat
  calc
    ofBytes self.asBytes = ⟨(ofBytes self.asBytes).name, (ofBytes self.asBytes).inodeNumber⟩ := rfl
    _ = self := by rw [hname, hnumber]

theorem name_ofName (name : String) (inodeNumber : UInt32) {i : Nat} (hi : i < 28) :
    (ofName name inodeNumber).name[i]? = some ((strBytes name)[i]?.getD 0) := by
  have hi' : i < nameLengthLimit + 1 := hi
  simp [ofName, hi']

end DirEntry

/-- A name a directory entry can hold: at most `NAME_LENGTH_LIMIT` bytes, none of them NUL. -/
structure NameOk (name : String) : Prop where
  length_le : (strBytes name).length ≤ nameLengthLimit
  nul_free : ∀ c ∈ strBytes name, c ≠ 0

instance (name : String) : Decidable (NameOk name) :=
  decidable_of_iff ((strBytes name).length ≤ nameLengthLimit ∧
      (strBytes name).all (fun c => c != 0) = true)
    ⟨fun h => ⟨h.1, fun c hc => bne_iff_ne.mp (List.all_eq_true.mp h.2 c hc)⟩,
      fun h => ⟨h.1, List.all_eq_true.mpr fun c hc => bne_iff_ne.mpr (h.2 c hc)⟩⟩

theorem fromUTF8?_strBytes (name : String) :
    String.fromUTF8? ⟨(strBytes name).toArray⟩ = some name := by
  have hbytes : (⟨(strBytes name).toArray⟩ : ByteArray) = name.toByteArray := by
    simp [strBytes]
  rw [hbytes, String.fromUTF8?, dif_pos name.isValidUTF8]
  rfl

namespace DirEntry

section Run

variable {cap : Nat} {ro : Bool} {v : View Block} {name : String}

theorem run_new (hlen : (strBytes name).length ≤ nameLengthLimit + 1) (inodeNumber : UInt32) :
    (new name inodeNumber).run cap ro v = some (ofName name inodeNumber, v) := by
  rw [new, decide_eq_true hlen, run_bind_some (run_check_true v)]
  rfl

/-- A name that is longer than the field is refused by `copy_from_slice`. -/
theorem panics_new (hlen : ¬(strBytes name).length ≤ nameLengthLimit + 1) (inodeNumber : UInt32) :
    (new name inodeNumber).Panics cap v := by
  rw [new, decide_eq_false hlen]
  exact panics_bind_left panics_check_false _

theorem stops_nameStr (self : DirEntry) : self.nameStr.Stops cap v :=
  stops_bind (stops_unwrap _) fun _ => stops_unwrap _

theorem find?_nul (hname : NameOk name) (inodeNumber : UInt32) :
    ((List.range (nameLengthLimit + 1)).find? fun i =>
      (ofName name inodeNumber).name[i]? == some 0) = some (strBytes name).length := by
  have hlen : (strBytes name).length ≤ 27 := hname.length_le
  rw [find?_range_eq_some]
  refine ⟨?_, ?_, ?_⟩
  · rw [name_ofName name inodeNumber (by omega)]
    simp
  · rw [mem_range, nameLengthLimit]
    omega
  · intro j hj
    rw [name_ofName name inodeNumber (by omega)]
    have hmem : (strBytes name)[j] ∈ strBytes name := getElem_mem hj
    have hne := hname.nul_free _ hmem
    simp [hj, hne]

theorem run_nameStr (hname : NameOk name) (inodeNumber : UInt32) :
    (ofName name inodeNumber).nameStr.run cap ro v = some (name, v) := by
  have hlen : (strBytes name).length ≤ 27 := hname.length_le
  have htake : (ofName name inodeNumber).name.toList.take (strBytes name).length =
      strBytes name := by
    apply ext_getElem
    · rw [length_take, Vector.length_toList, nameLengthLimit]
      omega
    · intro i hi _
      have hlt : i < (strBytes name).length := by
        simp only [length_take] at hi
        omega
      simp [ofName, hlt]
  rw [nameStr, find?_nul hname, run_bind_some (run_unwrap_some _ v), htake, fromUTF8?_strBytes]
  rfl

end Run

end DirEntry

end RCore.EasyFs
