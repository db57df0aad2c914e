import Kernway.Utf8

namespace Kernway

/-- The alphabet of base64url, RFC 4648 §5. -/
def alphabet : Text := "ABCDEFGHIJKLMNOPQRSTUVWXYZabcdefghijklmnopqrstuvwxyz0123456789-_".toList

/-- The digit for the low six bits of a number. -/
def digit (n : Nat) : Char := alphabet.getD (n % 64) 'A'

/-- `b64url_encode`: three bytes to four digits, no padding. -/
def b64urlEncode : Bytes → Text
  | [] => []
  | [b0] =>
    let n := b0.toNat * 65536
    [digit (n / 262144), digit (n / 4096)]
  | [b0, b1] =>
    let n := b0.toNat * 65536 + b1.toNat * 256
    [digit (n / 262144), digit (n / 4096), digit (n / 64)]
  | b0 :: b1 :: b2 :: rest =>
    let n := b0.toNat * 65536 + b1.toNat * 256 + b2.toNat
    digit (n / 262144) :: digit (n / 4096) :: digit (n / 64) :: digit n :: b64urlEncode rest

/-- The value of a digit. A character outside ASCII is none, as its bytes are. -/
def digitValue (c : Char) : Option Nat :=
  if 'A' ≤ c ∧ c ≤ 'Z' then some (c.toNat - 'A'.toNat)
  else if 'a' ≤ c ∧ c ≤ 'z' then some (c.toNat - 'a'.toNat + 26)
  else if '0' ≤ c ∧ c ≤ '9' then some (c.toNat - '0'.toNat + 52)
  else if c = '-' then some 62
  else if c = '_' then some 63
  else none

/-- The loop of `b64url_decode`; `acc` is a `u32` whose high bits are shifted out. -/
def decodeFrom (acc bits : Nat) : Text → Option Bytes
  | [] => some []
  | c :: s =>
    if c = '=' then decodeFrom acc bits s
    else
      (digitValue c).bind fun v =>
        let acc := (acc * 64 + v) % 2 ^ 32
        if 8 ≤ bits + 6 then
          let bits := bits + 6 - 8
          (decodeFrom acc bits s).map (UInt8.ofNat (acc / 2 ^ bits) :: ·)
        else decodeFrom acc (bits + 6) s

def b64urlDecode (s : Text) : Option Bytes := decodeFrom 0 0 s

theorem digitValue_digit (n : Nat) : digitValue (digit n) = some (n % 64) ∧ digit n ≠ '=' := by
  have hall : ∀ m < 64, digitValue (alphabet.getD m 'A') = some m ∧ alphabet.getD m 'A' ≠ '=' := by
    decide +kernel
  exact hall (n % 64) (Nat.mod_lt n (by decide))

theorem digit_mem_alphabet (n : Nat) : digit n ∈ alphabet := by
  have hlt : n % 64 < alphabet.length := Nat.mod_lt n (by decide)
  rw [digit, List.getD_eq_getElem?_getD, List.getElem?_eq_getElem hlt]
  exact List.getElem_mem hlt

theorem mem_alphabet_of_mem_b64urlEncode {data : Bytes} {c : Char} (h : c ∈ b64urlEncode data) :
    c ∈ alphabet := by
  have hdigit : ∀ n, c = digit n → c ∈ alphabet := by
    rintro n rfl
    exact digit_mem_alphabet n
  induction data using b64urlEncode.induct with
  | case1 => cases h
  | case2 b0 =>
    simp only [b64urlEncode, List.mem_cons, List.not_mem_nil, or_false] at h
    rcases h with h | h <;> exact hdigit _ h
  | case3 b0 b1 =>
    simp only [b64urlEncode, List.mem_cons, List.not_mem_nil, or_false] at h
    rcases h with h | h | h <;> exact hdigit _ h
  | case4 b0 b1 b2 rest ih =>
    simp only [b64urlEncode, List.mem_cons] at h
    rcases h with h | h | h | h | h
    · exact hdigit _ h
    · exact hdigit _ h
    · exact hdigit _ h
    · exact hdigit _ h
    · exact ih h

/-- No digit is the dot between the parts of a token. -/
theorem dot_notMem_b64urlEncode (data : Bytes) : '.' ∉ b64urlEncode data := by
  intro h
  have hmem := mem_alphabet_of_mem_b64urlEncode h
  revert hmem
  decide

/-- A digit that does not complete a byte. -/
theorem decodeFrom_wait (acc bits n : Nat) (s : Text) (hb : bits + 6 < 8) :
    decodeFrom acc bits (digit n :: s) =
      decodeFrom ((acc * 64 + n % 64) % 2 ^ 32) (bits + 6) s := by
  have hd := digitValue_digit n
  rw [decodeFrom, if_neg hd.2, hd.1, Option.bind_some, if_neg (by omega)]

/-- A digit that completes a byte. -/
theorem decodeFrom_emit (acc bits n : Nat) (s : Text) (hb : 8 ≤ bits + 6) :
    decodeFrom acc bits (digit n :: s) =
      (decodeFrom ((acc * 64 + n % 64) % 2 ^ 32) (bits + 6 - 8) s).map
        (UInt8.ofNat ((acc * 64 + n % 64) % 2 ^ 32 / 2 ^ (bits + 6 - 8)) :: ·) := by
  have hd := digitValue_digit n
  rw [decodeFrom, if_neg hd.2, hd.1, Option.bind_some, if_pos hb]

theorem ofNat_eq_of_mod {b : UInt8} {n : Nat} (h : n % 256 = b.toNat) : UInt8.ofNat n = b := by
  apply UInt8.toNat_inj.mp
  rw [UInt8.toNat_ofNat', h]

/-- What stands in the accumulator before a group of digits does not show in its bytes. -/
theorem decodeFrom_b64urlEncode (data : Bytes) (acc : Nat) :
    decodeFrom acc 0 (b64urlEncode data) = some data := by
  induction data using b64urlEncode.induct generalizing acc with
  | case1 => rfl
  | case2 b0 =>
    have h0 : b0.toNat < 256 := b0.toNat_lt
    simp only [b64urlEncode]
    rw [decodeFrom_wait _ _ _ _ (by decide), decodeFrom_emit _ _ _ _ (by decide), decodeFrom,
      Option.map_some]
    congr 2
    refine ofNat_eq_of_mod ?_
    omega
  | case3 b0 b1 =>
    have h0 : b0.toNat < 256 := b0.toNat_lt
    have h1 : b1.toNat < 256 := b1.toNat_lt
    simp only [b64urlEncode]
    rw [decodeFrom_wait _ _ _ _ (by decide), decodeFrom_emit _ _ _ _ (by decide),
      decodeFrom_emit _ _ _ _ (by decide), decodeFrom, Option.map_some, Option.map_some]
    congr 3
    · refine ofNat_eq_of_mod ?_
      omega
    · refine ofNat_eq_of_mod ?_
      omega
  | case4 b0 b1 b2 rest ih =>
    have h0 : b0.toNat < 256 := b0.toNat_lt
    have h1 : b1.toNat < 256 := b1.toNat_lt
    have h2 : b2.toNat < 256 := b2.toNat_lt
    simp only [b64urlEncode]
    rw [decodeFrom_wait _ _ _ _ (by decide), decodeFrom_emit _ _ _ _ (by decide),
      decodeFrom_emit _ _ _ _ (by decide), decodeFrom_emit _ _ _ _ (by decide), ih,
      Option.map_some, Option.map_some, Option.map_some]
    congr 4
    · refine ofNat_eq_of_mod ?_
      omega
    · refine ofNat_eq_of_mod ?_
      omega
    · refine ofNat_eq_of_mod ?_
      omega

theorem b64urlDecode_b64urlEncode (data : Bytes) : b64urlDecode (b64urlEncode data) = some data :=
  decodeFrom_b64urlEncode data 0

theorem b64urlEncode_inj {data data' : Bytes} :
    b64urlEncode data = b64urlEncode data' ↔ data = data' := by
  constructor
  · intro h
    have hdecode := b64urlDecode_b64urlEncode data
    rw [h, b64urlDecode_b64urlEncode] at hdecode
    exact (Option.some.inj hdecode).symm
  · rintro rfl
    rfl

end Kernway
