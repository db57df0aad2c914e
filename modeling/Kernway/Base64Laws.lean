import Kernway.Base64
import Kernway.StrSlice

namespace Kernway

/-- The operations of checked arithmetic that can panic. -/
inductive Overflow
  | add
  | sub
  | shift

def checkedAdd (a b : Nat) : Except Overflow Nat :=
  if a + b < 2 ^ 32 then .ok (a + b) else .error .add

def checkedSub (a b : Nat) : Except Overflow Nat := if b ≤ a then .ok (a - b) else .error .sub

/-- `a >> bits` of a `u32`. -/
def checkedShr (a bits : Nat) : Except Overflow Nat :=
  if bits < 32 then .ok (a / 2 ^ bits) else .error .shift

/-- The value of a byte as a digit. -/
def byteDigit (b : UInt8) : Option Nat :=
  let n := b.toNat
  if 'A'.toNat ≤ n ∧ n ≤ 'Z'.toNat then some (n - 'A'.toNat)
  else if 'a'.toNat ≤ n ∧ n ≤ 'z'.toNat then some (n - 'a'.toNat + 26)
  else if '0'.toNat ≤ n ∧ n ≤ '9'.toNat then some (n - '0'.toNat + 52)
  else if b = byteOf '-' then some 62
  else if b = byteOf '_' then some 63
  else none

/-- The loop of `b64url_decode` over the bytes, with the checks of its arithmetic. -/
def decodeChecked (acc bits : Nat) : Bytes → Except Overflow (Option Bytes)
  | [] => .ok (some [])
  | b :: rest =>
    if b = byteOf '=' then decodeChecked acc bits rest
    else
      match byteDigit b with
      | none => .ok none
      | some v => do
        let acc := (acc * 64 + v) % 2 ^ 32
        let bits ← checkedAdd bits 6
        if 8 ≤ bits then
          let bits ← checkedSub bits 8
          let byte ← checkedShr acc bits
          let out ← decodeChecked acc bits rest
          .ok (out.map (UInt8.ofNat byte :: ·))
        else decodeChecked acc bits rest

theorem byteDigit_ascii {c : Char} (hc : c.toNat ≤ 127) :
    byteDigit (byteOf c) = digitValue c ∧ (byteOf c = byteOf '=' ↔ c = '=') := by
  refine ⟨?_, byteOf_inj_iff hc (by decide)⟩
  unfold byteDigit digitValue
  rw [toNat_byteOf hc]
  exact if_congr Iff.rfl rfl <| if_congr Iff.rfl rfl <| if_congr Iff.rfl rfl <|
    if_congr (byteOf_inj_iff hc (by decide)) rfl <| if_congr (byteOf_inj_iff hc (by decide)) rfl rfl

theorem byteDigit_high {b : UInt8} (hb : 127 < b.toNat) :
    byteDigit b = none ∧ b ≠ byteOf '=' := by
  have hnot : ∀ d : Char, d.toNat ≤ 127 → ¬ b.toNat ≤ d.toNat := by
    intro d hd
    omega
  have hne : ∀ d : Char, d.toNat ≤ 127 → b ≠ byteOf d := by
    rintro d hd rfl
    rw [toNat_byteOf hd] at hb
    omega
  refine ⟨?_, hne '=' (by decide)⟩
  unfold byteDigit
  rw [if_neg fun h => hnot 'Z' (by decide) h.2, if_neg fun h => hnot 'z' (by decide) h.2,
    if_neg fun h => hnot '9' (by decide) h.2, if_neg (hne '-' (by decide)),
    if_neg (hne '_' (by decide))]

theorem digitValue_high {c : Char} (hc : 127 < c.toNat) : digitValue c = none := by
  have hnot : ∀ d : Char, d.toNat ≤ 127 → ¬ c ≤ d := by
    intro d hd hle
    have hle' : c.toNat ≤ d.toNat := hle
    omega
  have hne : ∀ d : Char, d.toNat ≤ 127 → c ≠ d := by
    rintro d hd rfl
    omega
  unfold digitValue
  rw [if_neg fun h => hnot 'Z' (by decide) h.2, if_neg fun h => hnot 'z' (by decide) h.2,
    if_neg fun h => hnot '9' (by decide) h.2, if_neg (hne '-' (by decide)),
    if_neg (hne '_' (by decide))]

theorem digitValue_isSome_iff (c : Char) : (digitValue c).isSome = true ↔ c ∈ alphabet := by
  have hcodes : alphabet.map Char.toNat =
      List.range' 65 26 ++ List.range' 97 26 ++ List.range' 48 10 ++ [45, 95] := by decide
  have hle : ∀ d : Char, (d ≤ c ↔ d.toNat ≤ c.toNat) ∧ (c ≤ d ↔ c.toNat ≤ d.toNat) ∧
      (c = d ↔ c.toNat = d.toNat) := fun d => ⟨Iff.rfl, Iff.rfl, Char.toNat_inj.symm⟩
  rw [mem_iff_toNat_mem, hcodes]
  simp only [List.mem_append, List.mem_range'_1, List.mem_cons, List.not_mem_nil, or_false]
  unfold digitValue
  simp only [hle, Char.reduceToNat]
  split_ifs <;> simp only [Option.isSome_some, Option.isSome_none, Bool.false_eq_true, true_iff,
    false_iff] <;> omega

/-- Fewer than eight bits wait at the head of the loop, and no operation panics. -/
theorem decodeChecked_eq (s : Text) (acc : Nat) {bits : Nat} (hbits : bits < 8) :
    decodeChecked acc bits (encodeUtf8 s) = .ok (decodeFrom acc bits s) := by
  induction s generalizing acc bits with
  | nil => rfl
  | cons c s ih =>
    rw [encodeUtf8_cons]
    by_cases hc : c.toNat ≤ 127
    · obtain ⟨hdigit, heq⟩ := byteDigit_ascii hc
      rw [utf8EncodeChar_ascii hc, List.singleton_append, decodeFrom]
      show decodeChecked acc bits (byteOf c :: encodeUtf8 s) = _
      rw [decodeChecked, hdigit]
      by_cases hpad : c = '='
      · rw [if_pos (heq.mpr hpad), if_pos hpad, ih acc hbits]
      · rw [if_neg (mt heq.mp hpad), if_neg hpad]
        cases digitValue c with
        | none => rfl
        | some v =>
          have hadd : checkedAdd bits 6 = .ok (bits + 6) := if_pos (by omega)
          dsimp only
          rw [hadd, Option.bind_some]
          show (if 8 ≤ bits + 6 then _ else _) = _
          by_cases hfull : 8 ≤ bits + 6
          · have hsub : checkedSub (bits + 6) 8 = .ok (bits + 6 - 8) := if_pos hfull
            have hshr : ∀ a, checkedShr a (bits + 6 - 8) = .ok (a / 2 ^ (bits + 6 - 8)) :=
              fun a => if_pos (by omega)
            rw [if_pos hfull, if_pos hfull, hsub]
            show (do
              let byte ← checkedShr _ (bits + 6 - 8)
              let out ← decodeChecked _ (bits + 6 - 8) _
              Except.ok (out.map (UInt8.ofNat byte :: ·))) = _
            rw [hshr, ih _ (by omega)]
            rfl
          · rw [if_neg hfull, if_neg hfull, ih _ (by omega)]
    · obtain ⟨b, bs, hne⟩ := List.exists_cons_of_ne_nil (utf8EncodeChar_ne_nil c)
      have hb : b ∈ String.utf8EncodeChar c := by rw [hne]; exact List.mem_cons_self
      obtain ⟨hnone, hpad⟩ := byteDigit_high (utf8EncodeChar_high (by omega) hb)
      have hc' : c ≠ '=' := by
        rintro rfl
        exact hc (by decide)
      rw [hne, List.cons_append, decodeChecked, if_neg hpad, hnone, decodeFrom, if_neg hc',
        digitValue_high (by omega)]
      rfl

theorem decodeFrom_isSome_iff (s : Text) (acc bits : Nat) :
    (decodeFrom acc bits s).isSome = true ↔ ∀ c ∈ s, c = '=' ∨ c ∈ alphabet := by
  induction s generalizing acc bits with
  | nil => exact iff_of_true rfl (by simp)
  | cons c s ih =>
    rw [decodeFrom, List.forall_mem_cons]
    by_cases hpad : c = '='
    · rw [if_pos hpad, ih]
      exact (and_iff_right (.inl hpad)).symm
    · rw [if_neg hpad, ← digitValue_isSome_iff]
      cases digitValue c with
      | none =>
        rw [Option.bind_none]
        exact iff_of_false Bool.false_ne_true fun h => by simpa [hpad] using h.1
      | some v =>
        rw [Option.bind_some]
        dsimp only
        rw [and_iff_right (.inr rfl)]
        split
        next => rw [Option.isSome_map, ih]
        next => exact ih ..

/-- The encoding is over the alphabet and is read back, by a decoder that does not panic on any text
and takes just the texts over the alphabet, up to padding. -/
theorem b64url_laws (data data' : Bytes) (s : Text) :
    b64urlDecode (b64urlEncode data) = some data ∧
      (∀ c ∈ b64urlEncode data, c ∈ alphabet ∧ c ≠ '=') ∧
      decodeChecked 0 0 (encodeUtf8 s) = .ok (b64urlDecode s) ∧
      ((b64urlDecode s).isSome = true ↔ ∀ c ∈ s, c = '=' ∨ c ∈ alphabet) ∧
      (b64urlEncode data = b64urlEncode data' ↔ data = data') := by
  refine ⟨b64urlDecode_b64urlEncode data, fun c hc => ?_, decodeChecked_eq s 0 (by decide),
    decodeFrom_isSome_iff s 0 0, b64urlEncode_inj⟩
  have hmem := mem_alphabet_of_mem_b64urlEncode hc
  refine ⟨hmem, ?_⟩
  rintro rfl
  revert hmem
  decide

end Kernway
