import Kernway.Base64
import Kernway.StrSlice

namespace Kernway

namespace Bcrypt

/-- bcrypt's own order of the 64 digits. -/
def alphabet : Text := "./ABCDEFGHIJKLMNOPQRSTUVWXYZabcdefghijklmnopqrstuvwxyz0123456789".toList

def digit (n : Nat) : Char := alphabet.getD (n % 64) '.'

/-- `encode_b64` of all of `data`. -/
def encodeB64 : Bytes → Text
  | [] => []
  | [c1] => [digit (c1.toNat / 4), digit (c1.toNat % 4 * 16)]
  | [c1, c2] =>
    [digit (c1.toNat / 4), digit (c1.toNat % 4 * 16 + c2.toNat / 16), digit (c2.toNat % 16 * 4)]
  | c1 :: c2 :: c3 :: rest =>
    digit (c1.toNat / 4) :: digit (c1.toNat % 4 * 16 + c2.toNat / 16) ::
      digit (c2.toNat % 16 * 4 + c3.toNat / 64) :: digit (c3.toNat % 64) :: encodeB64 rest

def char64 (c : UInt8) : Option Nat := (alphabet.map byteOf).idxOf? c

/-- `decode_b64`, with room for `max` bytes. -/
def decodeB64 (max : Nat) : Bytes → Option Bytes
  | [] => some []
  | b1 :: rest =>
    if max = 0 then some []
    else
      (char64 b1).bind fun c1 =>
        match rest with
        | [] => some []
        | b2 :: rest =>
          (char64 b2).bind fun c2 =>
            let o1 := UInt8.ofNat (c1 * 4 + c2 / 16 % 4)
            if max = 1 then some [o1]
            else
              match rest with
              | [] => some [o1]
              | b3 :: rest =>
                (char64 b3).bind fun c3 =>
                  let o2 := UInt8.ofNat (c2 % 16 * 16 + c3 / 4 % 16)
                  if max = 2 then some [o1, o2]
                  else
                    match rest with
                    | [] => some [o1, o2]
                    | b4 :: rest =>
                      (char64 b4).bind fun c4 =>
                        let o3 := UInt8.ofNat (c3 % 4 * 64 + c4)
                        (decodeB64 (max - 3) rest).map fun out => o1 :: o2 :: o3 :: out

theorem char64_digit (n : Nat) : char64 (byteOf (digit n)) = some (n % 64) := by
  have hall : ∀ m < 64, char64 (byteOf (alphabet.getD m '.')) = some m := by decide +kernel
  exact hall (n % 64) (Nat.mod_lt n (by decide))

theorem digit_ascii (n : Nat) : (digit n).toNat ≤ 127 := by
  have hall : alphabet.all (fun c => decide (c.toNat ≤ 127)) = true := by decide
  have hlt : n % 64 < alphabet.length := Nat.mod_lt n (by decide)
  unfold digit
  rw [List.getD_eq_getElem?_getD, List.getElem?_eq_getElem hlt]
  exact of_decide_eq_true (List.all_eq_true.mp hall _ (List.getElem_mem hlt))

theorem encodeUtf8_digit (n : Nat) (s : Text) :
    encodeUtf8 (digit n :: s) = byteOf (digit n) :: encodeUtf8 s := by
  rw [encodeUtf8_cons, utf8EncodeChar_ascii (digit_ascii n)]
  rfl

/-- The first byte is read back from two digits. -/
theorem first_byte (c : UInt8) {n : Nat} (hn : n < 16) :
    UInt8.ofNat (c.toNat / 4 % 64 * 4 + (c.toNat % 4 * 16 + n) % 64 / 16 % 4) = c := by
  have hc : c.toNat < 256 := c.toNat_lt
  apply ofNat_eq_of_mod
  omega

theorem second_byte (c : UInt8) {m n : Nat} (hn : n < 4) :
    UInt8.ofNat ((m % 4 * 16 + c.toNat / 16) % 64 % 16 * 16 +
      (c.toNat % 16 * 4 + n) % 64 / 4 % 16) = c := by
  have hc : c.toNat < 256 := c.toNat_lt
  apply ofNat_eq_of_mod
  omega

theorem third_byte (c : UInt8) {m : Nat} :
    UInt8.ofNat ((m % 16 * 4 + c.toNat / 64) % 64 % 4 * 64 + c.toNat % 64 % 64) = c := by
  have hc : c.toNat < 256 := c.toNat_lt
  apply ofNat_eq_of_mod
  omega

/-- What was encoded is read back, where there is room for just its bytes. -/
theorem decodeB64_encodeB64 (data : Bytes) :
    decodeB64 data.length (encodeUtf8 (encodeB64 data)) = some data := by
  induction data using encodeB64.induct with
  | case1 => rfl
  | case2 c1 =>
    have h1 := first_byte c1 (n := 0) (by decide)
    rw [Nat.add_zero] at h1
    simp only [encodeB64, encodeUtf8_digit, encodeUtf8_nil, decodeB64, char64_digit,
      Option.bind_some, List.length_singleton, Nat.one_ne_zero, if_false, if_true]
    rw [h1]
  | case3 c1 c2 =>
    have h1 := first_byte c1 (n := c2.toNat / 16) (by have := c2.toNat_lt; omega)
    have h2 := second_byte c2 (m := c1.toNat) (n := 0) (by decide)
    rw [Nat.add_zero] at h2
    simp only [encodeB64, encodeUtf8_digit, encodeUtf8_nil, decodeB64, char64_digit,
      Option.bind_some, List.length_cons, List.length_nil]
    rw [if_neg (by decide), if_neg (by decide), if_pos (by decide), h1, h2]
  | case4 c1 c2 c3 rest ih =>
    have h1 := first_byte c1 (n := c2.toNat / 16) (by have := c2.toNat_lt; omega)
    have h2 := second_byte c2 (m := c1.toNat) (n := c3.toNat / 64) (by have := c3.toNat_lt; omega)
    have h3 := third_byte c3 (m := c2.toNat)
    simp only [encodeB64, encodeUtf8_digit, decodeB64, char64_digit, Option.bind_some,
      List.length_cons]
    have hroom : rest.length + 1 + 1 + 1 - 3 = rest.length := by omega
    rw [if_neg (by omega), if_neg (by omega), if_neg (by omega), h1, h2, h3, hroom, ih,
      Option.map_some]

theorem encodeB64_inj {data data' : Bytes} (hlen : data.length = data'.length) :
    encodeB64 data = encodeB64 data' ↔ data = data' := by
  constructor
  · intro h
    have hdecode := decodeB64_encodeB64 data
    rw [h, hlen, decodeB64_encodeB64] at hdecode
    exact (Option.some.inj hdecode).symm
  · rintro rfl
    rfl

/-- The digits of a text are as many as its bytes. -/
theorem length_encodeUtf8_encodeB64 (data : Bytes) :
    (encodeUtf8 (encodeB64 data)).length = (4 * data.length + 2) / 3 := by
  induction data using encodeB64.induct with
  | case1 => rfl
  | case2 c1 =>
    simp only [encodeB64, encodeUtf8_digit, encodeUtf8_nil, List.length_cons, List.length_nil]
  | case3 c1 c2 =>
    simp only [encodeB64, encodeUtf8_digit, encodeUtf8_nil, List.length_cons, List.length_nil]
  | case4 c1 c2 c3 rest ih =>
    simp only [encodeB64, encodeUtf8_digit, List.length_cons, ih]
    omega

end Bcrypt

end Kernway
