import Mathlib.Algebra.Group.Nat.Defs
import Mathlib.Data.List.Basic

namespace Kernway

abbrev Bytes := List UInt8

/-- The text of a `String` or `&str`, as its Unicode scalar values. -/
abbrev Text := List Char

def encodeUtf8 (s : Text) : Bytes := s.flatMap String.utf8EncodeChar

/-- `std::str::from_utf8`: the text, or `none` where the bytes are not UTF-8. -/
def decodeUtf8 (b : Bytes) : Option Text :=
  (ByteArray.utf8Decode? ⟨b.toArray⟩).map Array.toList

@[simp] theorem encodeUtf8_nil : encodeUtf8 [] = [] := rfl

@[simp] theorem encodeUtf8_cons (c : Char) (s : Text) :
    encodeUtf8 (c :: s) = String.utf8EncodeChar c ++ encodeUtf8 s := rfl

@[simp] theorem encodeUtf8_append (s t : Text) :
    encodeUtf8 (s ++ t) = encodeUtf8 s ++ encodeUtf8 t := by
  simp [encodeUtf8]

theorem utf8Encode_eq_encodeUtf8 (s : Text) : s.utf8Encode = ⟨(encodeUtf8 s).toArray⟩ := by
  rw [List.utf8Encode, ← encodeUtf8, ByteArray.ext_iff, List.data_toByteArray]

@[simp] theorem decodeUtf8_encodeUtf8 (s : Text) : decodeUtf8 (encodeUtf8 s) = some s := by
  simp [decodeUtf8, ← utf8Encode_eq_encodeUtf8]

theorem encodeUtf8_of_decodeUtf8 {b : Bytes} {s : Text} (h : decodeUtf8 b = some s) :
    encodeUtf8 s = b := by
  obtain ⟨cs, hd, rfl⟩ := Option.map_eq_some_iff.mp h
  have hsome : (ByteArray.utf8Decode? ⟨b.toArray⟩).isSome := by simp [hd]
  have hb := ByteArray.utf8Encode_get_utf8Decode? (b := ⟨b.toArray⟩) (h := hsome)
  simp only [hd, Option.get_some, utf8Encode_eq_encodeUtf8, ByteArray.mk.injEq] at hb
  simpa using congrArg Array.toList hb

theorem decodeUtf8_eq_some_iff {b : Bytes} {s : Text} :
    decodeUtf8 b = some s ↔ encodeUtf8 s = b := by
  constructor
  · exact encodeUtf8_of_decodeUtf8
  · rintro rfl
    exact decodeUtf8_encodeUtf8 s

theorem encodeUtf8_injective {s t : Text} (h : encodeUtf8 s = encodeUtf8 t) : s = t := by
  have hs := decodeUtf8_encodeUtf8 s
  rw [h, decodeUtf8_encodeUtf8] at hs
  exact (Option.some.inj hs).symm

@[simp] theorem decodeUtf8_nil : decodeUtf8 [] = some [] := decodeUtf8_encodeUtf8 []

theorem utf8EncodeChar_ascii {c : Char} (hc : c.toNat ≤ 127) :
    String.utf8EncodeChar c = [UInt8.ofNat c.toNat] := by
  simp only [String.utf8EncodeChar, Char.toNat_val, if_pos hc]

/-- The bytes of a character outside ASCII all have their high bit set. -/
theorem utf8EncodeChar_high {c : Char} (hc : 127 < c.toNat) {b : UInt8}
    (hb : b ∈ String.utf8EncodeChar c) : 127 < b.toNat := by
  have hv : ¬ c.val.toNat ≤ 0x7f := Nat.not_le.mpr hc
  simp only [String.utf8EncodeChar, hv, if_false] at hb
  split at hb
  · simp only [List.mem_cons, List.not_mem_nil, or_false] at hb
    rcases hb with rfl | rfl <;> simp only [UInt8.toNat_ofNat'] <;> omega
  · split at hb <;> simp only [List.mem_cons, List.not_mem_nil, or_false] at hb
    · rcases hb with rfl | rfl | rfl <;> simp only [UInt8.toNat_ofNat'] <;> omega
    · rcases hb with rfl | rfl | rfl | rfl <;> simp only [UInt8.toNat_ofNat'] <;> omega

theorem utf8EncodeChar_ne_nil (c : Char) : String.utf8EncodeChar c ≠ [] := by
  rw [← List.length_pos_iff, String.length_utf8EncodeChar]
  exact c.utf8Size_pos

/-- An ASCII byte occurs in the encoding of the ASCII character only. -/
theorem mem_utf8EncodeChar_ascii {c : Char} {d : Nat} (hd : d ≤ 127)
    (h : UInt8.ofNat d ∈ String.utf8EncodeChar c) : c.toNat = d := by
  by_cases hc : c.toNat ≤ 127
  · rw [utf8EncodeChar_ascii hc, List.mem_singleton] at h
    have := congrArg UInt8.toNat h
    simp only [UInt8.toNat_ofNat'] at this
    omega
  · have := utf8EncodeChar_high (by omega) h
    simp only [UInt8.toNat_ofNat'] at this
    omega

end Kernway
