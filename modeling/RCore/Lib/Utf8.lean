import Mathlib.Data.List.Basic

/-!
# UTF-8

The encoding of characters as a list of bytes, on top of the one of strings in core.  A list of
bytes that encodes characters can be cut into two that do at the boundaries of the characters
and nowhere else.  Bytes that are taken for characters one by one and encoded again give the same
bytes only if they are ASCII.
-/

namespace RCore.Lib.Utf8

open List Option

def encode (chars : List Char) : List UInt8 := chars.flatMap String.utf8EncodeChar

/-- The characters of bytes that encode some. -/
def decode (data : List UInt8) : Option (List Char) :=
  (String.fromUTF8? ⟨data.toArray⟩).map String.toList

/-- Some of the characters take up `n` bytes. -/
def Boundary (chars : List Char) (n : Nat) : Prop :=
  ∃ k, (encode (chars.take k)).length = n

variable {chars part rest : List Char} {data tail : List UInt8} {n : Nat}

@[simp] theorem encode_nil : encode [] = [] := rfl

@[simp] theorem encode_append (part rest : List Char) :
    encode (part ++ rest) = encode part ++ encode rest :=
  flatMap_append

theorem encode_cons (c : Char) (chars : List Char) :
    encode (c :: chars) = String.utf8EncodeChar c ++ encode chars :=
  flatMap_cons

theorem utf8Encode_eq (chars : List Char) : chars.utf8Encode = ⟨(encode chars).toArray⟩ := by
  apply ByteArray.ext
  rw [utf8Encode, data_toByteArray, encode]

theorem toByteArray_inj {data data' : List UInt8} :
    (⟨data.toArray⟩ : ByteArray) = ⟨data'.toArray⟩ ↔ data = data' := by
  simp

theorem toByteArray_eq (string : String) :
    string.toByteArray = ⟨(encode string.toList).toArray⟩ := by
  rw [← utf8Encode_eq, String.utf8Encode_toList]

theorem decode_encode (chars : List Char) : decode (encode chars) = some chars := by
  have hvalid : (⟨(encode chars).toArray⟩ : ByteArray).IsValidUTF8 :=
    ⟨chars, (utf8Encode_eq chars).symm⟩
  have hstring : String.fromUTF8 _ hvalid = String.ofList chars := by
    rw [← String.toByteArray_inj, String.toByteArray_ofList, utf8Encode_eq]
    rfl
  rw [decode, String.fromUTF8?, dif_pos hvalid, hstring, map_some, String.toList_ofList]

theorem decode_eq_some : decode data = some chars ↔ data = encode chars := by
  constructor
  · intro h
    obtain ⟨string, hstring, rfl⟩ := map_eq_some_iff.mp h
    rw [String.fromUTF8?, dite_none_right_eq_some] at hstring
    obtain ⟨hvalid, hstring⟩ := hstring
    rw [← toByteArray_inj, ← toByteArray_eq, ← Option.some.inj hstring]
    rfl
  · rintro rfl
    exact decode_encode chars

/-! ## Cutting bytes into two -/

theorem exists_rest (h : encode chars = encode part ++ tail) :
    ∃ rest, chars = part ++ rest ∧ tail = encode rest := by
  have hprefix : part <+: chars := by
    apply isPrefix_of_utf8Encode_append_eq_utf8Encode ⟨tail.toArray⟩
    rw [utf8Encode_eq, utf8Encode_eq, h]
    apply ByteArray.ext
    simp
  obtain ⟨rest, rfl⟩ := hprefix
  refine ⟨rest, rfl, ?_⟩
  rw [encode_append, append_cancel_left_eq] at h
  exact h.symm

theorem decode_ne_none_iff (h : encode chars = data ++ tail) :
    decode data ≠ none ↔ Boundary chars data.length := by
  constructor
  · intro hsome
    obtain ⟨part, hpart⟩ := ne_none_iff_exists'.mp hsome
    obtain rfl := decode_eq_some.mp hpart
    obtain ⟨rest, rfl, -⟩ := exists_rest h
    exact ⟨part.length, by rw [take_left]⟩
  · rintro ⟨k, hk⟩
    have hsplit : encode chars = encode (chars.take k) ++ encode (chars.drop k) := by
      rw [← encode_append, take_append_drop]
    have hdata : data = encode (chars.take k) :=
      (append_inj (h.symm.trans hsplit) hk.symm).1
    rw [hdata, decode_encode]
    exact some_ne_none _

theorem boundary_append :
    Boundary (part ++ rest) ((encode part).length + n) ↔ Boundary rest n := by
  constructor
  · rintro ⟨k, hk⟩
    rw [take_append, encode_append, length_append] at hk
    by_cases hle : part.length ≤ k
    · rw [take_of_length_le hle] at hk
      exact ⟨k - part.length, by omega⟩
    · -- fewer characters than the first part has do not take up more bytes
      have hpart : encode part = encode (part.take k) ++ encode (part.drop k) := by
        rw [← encode_append, take_append_drop]
      rw [(by omega : k - part.length = 0), take_zero, encode_nil, length_nil, hpart,
        length_append] at hk
      exact ⟨0, by rw [take_zero, encode_nil, length_nil]; omega⟩
  · rintro ⟨k, rfl⟩
    refine ⟨part.length + k, ?_⟩
    rw [take_length_add_append, encode_append, length_append]

/-! ## Bytes taken for characters -/

/-- `b as char` for each byte. -/
def latin1 (data : List UInt8) : List Char := data.map fun b => Char.ofNat b.toNat

theorem toNat_ofNat (b : UInt8) : (Char.ofNat b.toNat).val.toNat = b.toNat := by
  have hlt := b.toNat_lt
  have hvalid : b.toNat.isValidChar := .inl (by omega)
  rw [Char.ofNat, dif_pos hvalid]
  rfl

theorem encodeChar_of_lt {b : UInt8} (h : b < 0x80) :
    String.utf8EncodeChar (Char.ofNat b.toNat) = [b] := by
  have hle : b.toNat ≤ 0x7f := Nat.le_of_lt_succ (UInt8.lt_iff_toNat_lt.mp h)
  simp only [String.utf8EncodeChar, toNat_ofNat, if_pos hle, UInt8.ofNat_toNat]

theorem length_encodeChar_of_le {b : UInt8} (h : 0x80 ≤ b) :
    (String.utf8EncodeChar (Char.ofNat b.toNat)).length = 2 := by
  have hle : 0x80 ≤ b.toNat := UInt8.le_iff_toNat_le.mp h
  have hlt := b.toNat_lt
  simp only [String.utf8EncodeChar, toNat_ofNat, if_neg (by omega : ¬b.toNat ≤ 0x7f),
    if_pos (by omega : b.toNat ≤ 0x7ff), length_cons, length_nil]

theorem length_encode_latin1 (data : List UInt8) :
    (encode (latin1 data)).length = data.length + data.countP (0x80 ≤ ·) := by
  induction data with
  | nil => rfl
  | cons b data ih =>
    rw [latin1, map_cons, ← latin1, encode_cons, length_append, ih, length_cons, countP_cons]
    by_cases h : b < 0x80
    · rw [encodeChar_of_lt h, length_singleton, if_neg (by simpa using h)]
      omega
    · have hle : 0x80 ≤ b := UInt8.not_lt.mp h
      rw [length_encodeChar_of_le hle, if_pos (by simpa using hle)]
      omega

theorem encode_latin1_eq_iff : encode (latin1 data) = data ↔ ∀ b ∈ data, b < 0x80 := by
  constructor
  · intro h b hmem
    have hlength := congrArg List.length h
    rw [length_encode_latin1] at hlength
    have hnone : data.countP (0x80 ≤ ·) = 0 := by omega
    simpa using countP_eq_zero.mp hnone b hmem
  · intro h
    induction data with
    | nil => rfl
    | cons b data ih =>
      obtain ⟨hb, hdata⟩ := forall_mem_cons.mp h
      rw [latin1, map_cons, ← latin1, encode_cons, encodeChar_of_lt hb, ih hdata, singleton_append]

end RCore.Lib.Utf8
