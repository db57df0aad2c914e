import Kernway.Utf8

namespace Kernway

/-- The ranges of the bytes that follow the first byte of a character. -/
def followRanges (b : UInt8) : List (UInt8 × UInt8) :=
  if 0xC2 ≤ b ∧ b ≤ 0xDF then [(0x80, 0xBF)]
  else if b = 0xE0 then [(0xA0, 0xBF), (0x80, 0xBF)]
  else if b = 0xED then [(0x80, 0x9F), (0x80, 0xBF)]
  else if 0xE1 ≤ b ∧ b ≤ 0xEF then [(0x80, 0xBF), (0x80, 0xBF)]
  else if b = 0xF0 then [(0x90, 0xBF), (0x80, 0xBF), (0x80, 0xBF)]
  else if 0xF1 ≤ b ∧ b ≤ 0xF3 then [(0x80, 0xBF), (0x80, 0xBF), (0x80, 0xBF)]
  else if b = 0xF4 then [(0x80, 0x8F), (0x80, 0xBF), (0x80, 0xBF)]
  else []

/-- How many of the bytes lie in the ranges, one after the other. -/
def inRanges : List (UInt8 × UInt8) → Bytes → Nat
  | range :: ranges, b :: rest =>
    if range.1 ≤ b ∧ b ≤ range.2 then inRanges ranges rest + 1 else 0
  | _, _ => 0

def firstChar (b : Bytes) : Option Char := ByteArray.utf8DecodeChar? ⟨b.toArray⟩ 0

/-- `String::from_utf8_lossy`: each beginning of a character that does not go on as one becomes a
replacement character. -/
def decodeUtf8Lossy : Bytes → Text
  | [] => []
  | b :: rest =>
    match firstChar (b :: rest) with
    | some c => c :: decodeUtf8Lossy (rest.drop (c.utf8Size - 1))
    | none => '\uFFFD' :: decodeUtf8Lossy (rest.drop (inRanges (followRanges b) rest))
termination_by b => b.length
decreasing_by
  · rw [List.length_drop, List.length_cons]
    omega
  · rw [List.length_drop, List.length_cons]
    omega

theorem firstChar_encodeUtf8 (c : Char) (rest : Bytes) :
    firstChar (String.utf8EncodeChar c ++ rest) = some c := by
  have h := ByteArray.utf8DecodeChar?_utf8EncodeChar_append (b := ⟨rest.toArray⟩) (c := c)
  rw [← h, firstChar]
  congr 1
  rw [ByteArray.ext_iff, ByteArray.data_append, List.data_toByteArray]
  simp

theorem decodeUtf8Lossy_encodeUtf8_append (s : Text) (rest : Bytes) :
    decodeUtf8Lossy (encodeUtf8 s ++ rest) = s ++ decodeUtf8Lossy rest := by
  induction s with
  | nil => rfl
  | cons c s ih =>
    have hfirst := firstChar_encodeUtf8 c (encodeUtf8 s ++ rest)
    have hlen : (String.utf8EncodeChar c).length = c.utf8Size := String.length_utf8EncodeChar c
    cases hbytes : String.utf8EncodeChar c with
    | nil =>
      rw [hbytes] at hlen
      have := c.utf8Size_pos
      simp at hlen
      omega
    | cons b cont =>
      rw [hbytes, List.length_cons] at hlen
      rw [hbytes, List.cons_append] at hfirst
      have hcont : cont.length = c.utf8Size - 1 := by omega
      rw [encodeUtf8_cons, hbytes, List.append_assoc, List.cons_append, decodeUtf8Lossy, hfirst]
      dsimp only
      rw [← hcont, List.drop_left, ih, List.cons_append]

@[simp] theorem decodeUtf8Lossy_encodeUtf8 (s : Text) : decodeUtf8Lossy (encodeUtf8 s) = s := by
  have h := decodeUtf8Lossy_encodeUtf8_append s []
  rw [List.append_nil] at h
  rw [h, decodeUtf8Lossy, List.append_nil]

theorem utf8EncodeChar_tail {c : Char} {b : UInt8} (h : b ∈ (String.utf8EncodeChar c).tail) :
    128 ≤ b.toNat ∧ b.toNat < 192 := by
  unfold String.utf8EncodeChar at h
  dsimp only at h
  split at h
  next => cases h
  next =>
    split at h
    next =>
      simp only [List.tail_cons, List.mem_cons, List.not_mem_nil, or_false] at h
      rw [h, UInt8.toNat_ofNat']
      omega
    next =>
      split at h
      next =>
        simp only [List.tail_cons, List.mem_cons, List.not_mem_nil, or_false] at h
        rcases h with rfl | rfl
        · rw [UInt8.toNat_ofNat']
          omega
        · rw [UInt8.toNat_ofNat']
          omega
      next =>
        simp only [List.tail_cons, List.mem_cons, List.not_mem_nil, or_false] at h
        rcases h with rfl | rfl | rfl
        · rw [UInt8.toNat_ofNat']
          omega
        · rw [UInt8.toNat_ofNat']
          omega
        · rw [UInt8.toNat_ofNat']
          omega

theorem firstChar_eq_some {b : Bytes} {c : Char} (h : firstChar b = some c) :
    ∃ rest, b = String.utf8EncodeChar c ++ rest := by
  obtain ⟨l, hl⟩ := ByteArray.exists_of_utf8DecodeChar?_eq_some h
  refine ⟨l.data.toList, ?_⟩
  have hdata := congrArg (fun a : ByteArray => a.data.toList) hl
  simpa [List.utf8Encode] using hdata

theorem followRanges_high (b : UInt8) : ∀ range ∈ followRanges b, 128 ≤ range.1.toNat := by
  have hall : ∀ n : Fin 256,
      (followRanges (.ofNat n)).all (fun range => decide (128 ≤ range.1.toNat)) = true := by
    decide +kernel
  have h := hall ⟨b.toNat, b.toNat_lt⟩
  rw [UInt8.ofNat_toNat] at h
  exact fun range hrange => of_decide_eq_true (List.all_eq_true.mp h range hrange)

/-- An ASCII byte goes on with no character. -/
theorem inRanges_ascii {x : UInt8} (hx : x.toNat < 128) (p q : Bytes)
    {ranges : List (UInt8 × UInt8)} (h : ∀ range ∈ ranges, 128 ≤ range.1.toNat) :
    inRanges ranges (p ++ x :: q) = inRanges ranges p ∧ inRanges ranges p ≤ p.length := by
  induction p generalizing ranges with
  | nil =>
    cases ranges with
    | nil => exact ⟨rfl, Nat.le_refl 0⟩
    | cons range ranges =>
      have hlow := h range List.mem_cons_self
      have hout : ¬ (range.1 ≤ x ∧ x ≤ range.2) := by
        intro hin
        have hle : range.1.toNat ≤ x.toNat := hin.1
        omega
      refine ⟨?_, Nat.le_refl 0⟩
      rw [List.nil_append, inRanges, if_neg hout]
      rfl
  | cons b p ih =>
    cases ranges with
    | nil => exact ⟨rfl, Nat.zero_le _⟩
    | cons range ranges =>
      obtain ⟨heq, hle⟩ := ih fun r hr => h r (List.mem_cons_of_mem range hr)
      rw [List.cons_append, inRanges, inRanges, heq, List.length_cons]
      split
      next => exact ⟨rfl, Nat.succ_le_succ hle⟩
      next => exact ⟨rfl, Nat.zero_le _⟩

theorem firstChar_ascii {x : UInt8} (hx : x.toNat < 128) (b : UInt8) (p q : Bytes) :
    firstChar (b :: (p ++ x :: q)) = firstChar (b :: p) := by
  have hmore : ∀ (c : Char) (rest more : Bytes), b :: p = String.utf8EncodeChar c ++ rest →
      firstChar (b :: (p ++ more)) = some c := by
    intro c rest more h
    have hcons : b :: (p ++ more) = String.utf8EncodeChar c ++ (rest ++ more) := by
      rw [← List.cons_append, h, List.append_assoc]
    rw [hcons, firstChar_encodeUtf8]
  cases hfirst : firstChar (b :: p) with
  | some c =>
    obtain ⟨rest, hrest⟩ := firstChar_eq_some hfirst
    exact hmore c rest (x :: q) hrest
  | none =>
    rw [Option.eq_none_iff_forall_ne_some]
    intro c hc
    obtain ⟨rest, hrest⟩ := firstChar_eq_some hc
    obtain ⟨b', tail, hbytes⟩ := List.exists_cons_of_ne_nil (utf8EncodeChar_ne_nil c)
    have htail := fun y hy => utf8EncodeChar_tail (c := c) (b := y) (by rw [hbytes]; exact hy)
    rw [hbytes, List.cons_append] at hrest
    obtain ⟨rfl, hpieces⟩ := List.cons.inj hrest
    rcases List.append_eq_append_iff.mp hpieces with ⟨more, hmid, hend⟩ | ⟨more, hmid, hend⟩
    · -- the character goes on behind the ASCII byte
      cases more with
      | nil =>
        rw [List.append_nil] at hmid
        have hsome := hmore c [] [] (by rw [hbytes, hmid, List.append_nil])
        rw [List.append_nil, hfirst] at hsome
        cases hsome
      | cons y more =>
        obtain ⟨rfl, _⟩ := List.cons.inj hend
        have hhigh := htail x (by rw [hmid]; simp)
        omega
    · have hsome := hmore c more [] (by rw [hbytes, hmid, List.cons_append])
      rw [List.append_nil, hfirst] at hsome
      cases hsome

/-- What stands in front of an ASCII byte is read without it. -/
theorem decodeUtf8Lossy_ascii {x : UInt8} (hx : x.toNat < 128) (p q : Bytes) :
    decodeUtf8Lossy (p ++ x :: q) =
      decodeUtf8Lossy p ++ Char.ofNat x.toNat :: decodeUtf8Lossy q := by
  induction hn : p.length using Nat.strongRecOn generalizing p with
  | _ n ih =>
    cases p with
    | nil =>
      have hall : ∀ n : Fin 128, encodeUtf8 [Char.ofNat n] = [UInt8.ofNat n] := by decide +kernel
      have hbytes := hall ⟨x.toNat, hx⟩
      rw [UInt8.ofNat_toNat] at hbytes
      have h := decodeUtf8Lossy_encodeUtf8_append [Char.ofNat x.toNat] q
      rw [hbytes] at h
      rw [decodeUtf8Lossy]
      exact h
    | cons b p =>
      rw [List.cons_append, decodeUtf8Lossy, decodeUtf8Lossy]
      rw [List.length_cons] at hn
      rw [firstChar_ascii hx]
      cases hfirst : firstChar (b :: p) with
      | some c =>
        obtain ⟨rest, hrest⟩ := firstChar_eq_some hfirst
        have hlen := congrArg List.length hrest
        rw [List.length_cons, List.length_append, String.length_utf8EncodeChar] at hlen
        have hpos := c.utf8Size_pos
        dsimp only
        rw [List.drop_append_of_le_length (by omega), ih (p.drop (c.utf8Size - 1)).length ?_ _ rfl,
          List.cons_append]
        rw [List.length_drop]
        omega
      | none =>
        obtain ⟨heq, hle⟩ := inRanges_ascii hx p q (followRanges_high b)
        dsimp only
        rw [heq, List.drop_append_of_le_length hle, ih (p.drop _).length ?_ _ rfl, List.cons_append]
        rw [List.length_drop]
        omega

/-- A beginning of three bytes is replaced as a whole, a byte that begins nothing by itself. -/
example : decodeUtf8Lossy [0x41, 0xE2, 0x82, 0x41, 0xFF, 0xED, 0xA0] =
    ['A', '\uFFFD', 'A', '\uFFFD', '\uFFFD', '\uFFFD'] := by decide +kernel

end Kernway
