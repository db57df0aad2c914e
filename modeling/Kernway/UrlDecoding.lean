import Kernway.KernleafPlacing
import Kernway.StrSlice

namespace Kernway

/-- `u8::from_str_radix` in base 16: a plus in front of digits is taken. -/
def parseHexByte (s : Text) : Option UInt8 :=
  let digits := match s with
    | '+' :: c :: rest => c :: rest
    | _ => s
  let values := (encodeUtf8 digits).mapM Form.hexValue
  values.bind fun values =>
    let n := values.foldl (fun n d => 16 * n + d) 0
    if digits ≠ [] ∧ n < 256 then some (.ofNat n) else none

/-- `percent_encode`. -/
def percentEncode (s : Text) : Text :=
  (encodeUtf8 s).flatMap fun b =>
    if Kernleaf.isUnreserved b then [Char.ofNat b.toNat]
    else '%' :: (Kernleaf.hexUpper (b.toNat / 16) ++ Kernleaf.hexUpper (b.toNat % 16))

/-- The loop of `percent_decode` from the byte at `i` on. -/
@[semireducible] def percentBytes (s : Text) (i : Nat) : Except SliceFault Bytes :=
  if h : i < (encodeUtf8 s).length then
    let b := (encodeUtf8 s).get ⟨i, h⟩
    if b = byteOf '%' ∧ i + 2 < (encodeUtf8 s).length then do
      let digits ← strSlice s (i + 1) (i + 3)
      match parseHexByte digits with
      | some n => do
        let out ← percentBytes s (i + 3)
        .ok (n :: out)
      | none => do
        let out ← percentBytes s (i + 1)
        .ok (byteOf '%' :: out)
    else do
      let out ← percentBytes s (i + 1)
      .ok ((if b = byteOf '+' then byteOf ' ' else b) :: out)
  else .ok []
termination_by (encodeUtf8 s).length - i
decreasing_by all_goals omega

def CoreUrl.percentDecode (s : Text) : Except SliceFault Text := do
  let out ← percentBytes s 0
  .ok (decodeUtf8Lossy out)

namespace Csrf

/-- The loop of `url_decode` from the byte at `i` on; every index comes with its bound. -/
@[semireducible] def urlBytes (bytes : Bytes) (i : Nat) : Bytes :=
  if h : i < bytes.length then
    if bytes.get ⟨i, h⟩ = byteOf '+' then byteOf ' ' :: urlBytes bytes (i + 1)
    else if h' : bytes.get ⟨i, h⟩ = byteOf '%' ∧ i + 2 < bytes.length then
      match Form.hexValue (bytes.get ⟨i + 1, Nat.lt_of_succ_lt h'.2⟩),
          Form.hexValue (bytes.get ⟨i + 2, h'.2⟩) with
      | some hi, some lo => UInt8.ofNat (hi * 16 + lo) :: urlBytes bytes (i + 3)
      | _, _ => bytes.get ⟨i, h⟩ :: urlBytes bytes (i + 1)
    else bytes.get ⟨i, h⟩ :: urlBytes bytes (i + 1)
  else []
termination_by bytes.length - i
decreasing_by all_goals omega

def urlDecode (s : Text) : Text := decodeUtf8Lossy (urlBytes (encodeUtf8 s) 0)

end Csrf

section Csrf

theorem escaped_cons (h l : UInt8) (rest : Bytes) :
    Form.escaped (h :: l :: rest) =
      (Form.hexValue h).bind fun h => (Form.hexValue l).map fun l => .ofNat (h * 16 + l) := rfl

theorem unescape_keep {rest : Bytes} (h : Form.escaped rest = none) :
    Form.unescape (37 :: rest) = 37 :: Form.unescape rest := by
  rw [Form.unescape, if_pos rfl, h]
  rfl

theorem unescape_plus (rest : Bytes) : Form.unescape (43 :: rest) = 32 :: Form.unescape rest := by
  rw [Form.unescape, if_neg (by decide)]
  rfl

/-- The loop of `url_decode` is the decoding of forms. -/
theorem urlBytes_eq (bytes : Bytes) (i : Nat) :
    Csrf.urlBytes bytes i = Form.unescape (bytes.drop i) := by
  induction hn : bytes.length - i using Nat.strongRecOn generalizing i with
  | _ n ih =>
    have hnext := ih (bytes.length - (i + 1))
    unfold Csrf.urlBytes
    split
    next h =>
      have hdrop : bytes.drop i = bytes.get ⟨i, h⟩ :: bytes.drop (i + 1) :=
        List.drop_eq_getElem_cons h
      have hrest := hnext (by omega) (i + 1) rfl
      rw [hdrop, hrest]
      split
      next hplus =>
        rw [hplus]
        exact (unescape_plus _).symm
      next hplus =>
        have hkeep : (bytes.get ⟨i, h⟩ = byteOf '%' → Form.escaped (bytes.drop (i + 1)) = none) →
            bytes.get ⟨i, h⟩ :: Form.unescape (bytes.drop (i + 1)) =
              Form.unescape (bytes.get ⟨i, h⟩ :: bytes.drop (i + 1)) := by
          intro hnone
          by_cases hpercent : bytes.get ⟨i, h⟩ = byteOf '%'
          · rw [hpercent]
            exact (unescape_keep (hnone hpercent)).symm
          · exact (Form.unescape_plain hpercent hplus _).symm
        split
        next h' =>
          have hdrop₁ : bytes.drop (i + 1) = bytes.get ⟨i + 1, by omega⟩ :: bytes.drop (i + 2) :=
            List.drop_eq_getElem_cons (by omega)
          have hdrop₂ : bytes.drop (i + 2) = bytes.get ⟨i + 2, h'.2⟩ :: bytes.drop (i + 3) :=
            List.drop_eq_getElem_cons h'.2
          have hescaped := escaped_cons (bytes.get ⟨i + 1, by omega⟩) (bytes.get ⟨i + 2, h'.2⟩)
            (bytes.drop (i + 3))
          rw [← hdrop₂, ← hdrop₁] at hescaped
          split
          next hi lo hhi hlo =>
            rw [h'.1, hdrop₁, hdrop₂, ih (bytes.length - (i + 3)) (by omega) (i + 3) rfl]
            exact (Form.unescape_escape hhi hlo _).symm
          next hnot =>
            apply hkeep
            intro _
            rw [hescaped]
            cases hhi : Form.hexValue (bytes.get ⟨i + 1, by omega⟩) with
            | none => rfl
            | some hi =>
              cases hlo : Form.hexValue (bytes.get ⟨i + 2, h'.2⟩) with
              | none => rfl
              | some lo => exact absurd hlo (hnot hi lo hhi)
        next h' =>
          apply hkeep
          intro hpercent
          have hshort : bytes.length ≤ i + 2 := by
            by_contra hlong
            exact h' ⟨hpercent, by omega⟩
          have hlen : (bytes.drop (i + 1)).length < 2 := by
            rw [List.length_drop]
            omega
          rcases hd : bytes.drop (i + 1) with _ | ⟨x, _ | ⟨y, rest⟩⟩
          · rfl
          · rfl
          · rw [hd, List.length_cons, List.length_cons] at hlen
            omega
    next h =>
      rw [List.drop_eq_nil_of_le (by omega), Form.unescape]

end Csrf

section Conditions

def hexDigits : Text := "0123456789abcdefABCDEF".toList

/-- What `percent_decode` misreads behind a per cent sign: a character that goes beyond the next two
bytes, and a sign with one digit. -/
inductive Misread : Text → Prop
  | long {c : Char} {rest : Text} : 2 < c.utf8Size → Misread (c :: rest)
  | split {c d : Char} {rest : Text} : c.utf8Size = 1 → 1 < d.utf8Size → Misread (c :: d :: rest)
  | plus {d : Char} {rest : Text} : d ∈ hexDigits → Misread ('+' :: d :: rest)

/-- No per cent sign of a text has such characters behind it. -/
def ReadsRight (s : Text) : Prop := ∀ before rest, s = before ++ '%' :: rest → ¬ Misread rest

theorem readsRight_nil : ReadsRight [] := by
  intro before rest h
  exact absurd h (by simp)

theorem readsRight_cons {c : Char} {s : Text} :
    ReadsRight (c :: s) ↔ (c = '%' → ¬ Misread s) ∧ ReadsRight s := by
  constructor
  · intro h
    refine ⟨?_, fun before rest hs => h (c :: before) rest (by rw [hs, List.cons_append])⟩
    rintro rfl
    exact h [] s rfl
  · rintro ⟨hc, hs⟩ before rest heq
    cases before with
    | nil =>
      obtain ⟨rfl, rfl⟩ := List.cons.inj heq
      exact hc rfl
    | cons d before =>
      obtain ⟨rfl, htail⟩ := List.cons.inj heq
      exact hs before rest htail

/-- A decoding that faults, or puts another byte in the place of a per cent sign. -/
def Differs (r : Except SliceFault Bytes) (expected : Bytes) : Prop :=
  (∃ e, r = .error e) ∨
    ∃ p x out rest, r = .ok (p ++ x :: out) ∧ expected = p ++ 37 :: rest ∧ x.toNat < 16

def DecodesIff (right : Prop) (r : Except SliceFault Bytes) (expected : Bytes) : Prop :=
  right ∧ r = .ok expected ∨ ¬ right ∧ Differs r expected

theorem DecodesIff.prepend {right right' : Prop} {r : Except SliceFault Bytes} {expected : Bytes}
    (h : DecodesIff right r expected) (hiff : right' ↔ right) (w : Bytes) :
    DecodesIff right' (r.map (w ++ ·)) (w ++ expected) := by
  rcases h with ⟨hright, rfl⟩ | ⟨hwrong, ⟨e, rfl⟩ | ⟨p, x, out, rest, rfl, rfl, hx⟩⟩
  · exact .inl ⟨hiff.mpr hright, rfl⟩
  · exact .inr ⟨mt hiff.mp hwrong, .inl ⟨e, rfl⟩⟩
  · refine .inr ⟨mt hiff.mp hwrong, .inr ⟨w ++ p, x, out, rest, ?_, ?_, hx⟩⟩
    · rw [List.append_assoc]
      rfl
    · rw [List.append_assoc]

/-- Another byte shows in the text. -/
theorem lossy_ne_of_differs {r : Except SliceFault Bytes} {expected : Bytes} (h : Differs r expected) :
    r.map decodeUtf8Lossy ≠ .ok (decodeUtf8Lossy expected) := by
  rcases h with ⟨e, rfl⟩ | ⟨p, x, out, rest, rfl, rfl, hx⟩
  · intro h
    cases h
  · intro h
    have htext := Except.ok.inj h
    rw [decodeUtf8Lossy_ascii (by omega), decodeUtf8Lossy_ascii (by decide)] at htext
    have hchar := (List.cons.inj (List.append_cancel_left htext)).1
    have hall : ∀ n : Fin 16, Char.ofNat n ≠ Char.ofNat (37 : UInt8).toNat := by decide
    exact hall ⟨x.toNat, hx⟩ hchar

end Conditions

section Steps

variable {s rest : Text} {i : Nat}

theorem percentBytes_end (h : (encodeUtf8 s).length ≤ i) : percentBytes s i = .ok [] := by
  unfold percentBytes
  rw [dif_neg (by omega)]

theorem percentBytes_other {b : UInt8} (h : (encodeUtf8 s)[i]? = some b) (hb : b ≠ byteOf '%') :
    percentBytes s i =
      (percentBytes s (i + 1)).map ([if b = byteOf '+' then byteOf ' ' else b] ++ ·) := by
  obtain ⟨hi, rfl⟩ := List.getElem?_eq_some_iff.mp h
  conv_lhs => unfold percentBytes
  rw [dif_pos hi]
  dsimp only [List.get_eq_getElem]
  rw [if_neg fun h => hb h.1]
  rfl

theorem percentBytes_short (h : (encodeUtf8 s)[i]? = some (byteOf '%'))
    (hshort : (encodeUtf8 s).length ≤ i + 2) :
    percentBytes s i = (percentBytes s (i + 1)).map ([37] ++ ·) := by
  obtain ⟨hi, hb⟩ := List.getElem?_eq_some_iff.mp h
  conv_lhs => unfold percentBytes
  rw [dif_pos hi]
  dsimp only [List.get_eq_getElem]
  rw [if_neg fun h => by omega, hb]
  rfl

/-- What `percent_decode` does at a per cent sign with two bytes behind it. -/
theorem percentBytes_percent (h : (encodeUtf8 s)[i]? = some (byteOf '%'))
    (hlong : i + 2 < (encodeUtf8 s).length) :
    (∀ e, strSlice s (i + 1) (i + 3) = .error e → percentBytes s i = .error e) ∧
      ∀ digits, strSlice s (i + 1) (i + 3) = .ok digits →
        (∀ n, parseHexByte digits = some n →
          percentBytes s i = (percentBytes s (i + 3)).map ([n] ++ ·)) ∧
        (parseHexByte digits = none →
          percentBytes s i = (percentBytes s (i + 1)).map ([37] ++ ·)) := by
  obtain ⟨hi, hb⟩ := List.getElem?_eq_some_iff.mp h
  rw [percentBytes.eq_def s i, dif_pos hi]
  dsimp only [List.get_eq_getElem]
  rw [if_pos ⟨hb, hlong⟩]
  refine ⟨fun e hslice => ?_, fun digits hslice => ⟨fun n hparse => ?_, fun hparse => ?_⟩⟩
  · rw [hslice]
    rfl
  · simp only [hslice, bind, Except.bind, hparse]
    rfl
  · simp only [hslice, bind, Except.bind, hparse]
    rfl

/-- Bytes that are no signs are taken over. -/
theorem percentBytes_plain (hat : StandsAt s i rest) {w tail : Bytes}
    (hbytes : encodeUtf8 rest = w ++ tail) (hw : ∀ b ∈ w, b ≠ byteOf '%' ∧ b ≠ byteOf '+') :
    percentBytes s i = (percentBytes s (i + w.length)).map (w ++ ·) := by
  have hdrop : (encodeUtf8 s).drop i = w ++ tail := by rw [hat.drop, hbytes]
  clear hat hbytes
  induction w generalizing i with
  | nil =>
    cases percentBytes s i with
    | error e => rfl
    | ok out => rfl
  | cons b w ih =>
    obtain ⟨hpercent, hplus⟩ := hw b List.mem_cons_self
    have hget : (encodeUtf8 s)[i]? = some b := by
      rw [← List.head?_drop, hdrop]
      rfl
    have hnext : (encodeUtf8 s).drop (i + 1) = w ++ tail := by
      rw [← List.tail_drop, hdrop]
      rfl
    have hrest := ih (fun b' hb' => hw b' (List.mem_cons_of_mem b hb')) hnext
    have hindex : i + (w.length + 1) = i + 1 + w.length := by omega
    rw [percentBytes_other hget hpercent, if_neg hplus, hrest, List.length_cons, hindex]
    cases percentBytes s (i + 1 + w.length) with
    | error e => rfl
    | ok out => rfl

/-- An index inside of a character. -/
theorem not_isCharBoundary {c : Char} (hat : StandsAt s i (c :: rest)) {k : Nat} (hk : 0 < k)
    (hin : k < c.utf8Size) : isCharBoundary s (i + k) = false := by
  obtain ⟨b, tail, hbytes⟩ := List.exists_cons_of_ne_nil (utf8EncodeChar_ne_nil c)
  have hlen : tail.length + 1 = c.utf8Size := by
    rw [← String.length_utf8EncodeChar, hbytes, List.length_cons]
  obtain ⟨j, rfl⟩ := Nat.exists_eq_add_of_lt hk
  have hj : 0 + j < tail.length := by omega
  have hmem : tail[0 + j] ∈ (String.utf8EncodeChar c).tail := by
    rw [hbytes]
    exact List.getElem_mem hj
  have hget : (encodeUtf8 s)[i + (0 + j + 1)]? = some tail[0 + j] := by
    rw [← List.getElem?_drop, hat.drop, encodeUtf8_cons, hbytes, List.cons_append,
      List.getElem?_cons_succ, List.getElem?_append_left hj, List.getElem?_eq_getElem hj]
  have hfollow := utf8EncodeChar_tail hmem
  rw [isCharBoundary, hget]
  simpa using hfollow

end Steps

section Digits

theorem hexValue_ascii {c : Char} (hc : c.toNat ≤ 127) :
    (Form.hexValue (byteOf c)).isSome = true ↔ c ∈ hexDigits := by
  have hcodes : hexDigits.map Char.toNat =
      List.range' 48 10 ++ List.range' 97 6 ++ List.range' 65 6 := by decide
  rw [mem_iff_toNat_mem, hcodes]
  simp only [List.mem_append, List.mem_range'_1]
  unfold Form.hexValue
  simp only [toNat_byteOf hc, Char.reduceToNat]
  split_ifs <;> simp only [Option.isSome_some, Option.isSome_none, Bool.false_eq_true, true_iff,
    false_iff] <;> omega

theorem hexValue_lt {b : UInt8} {n : Nat} (h : Form.hexValue b = some n) : n < 16 := by
  unfold Form.hexValue at h
  simp only [Char.reduceToNat] at h
  split_ifs at h <;> cases h <;> omega

theorem hexValue_high {b : UInt8} (h : 128 ≤ b.toNat) : Form.hexValue b = none := by
  unfold Form.hexValue
  simp only [Char.reduceToNat]
  rw [if_neg (by omega), if_neg (by omega), if_neg (by omega)]

variable {c d : Char}

theorem parseHexByte_sign (hd : d.toNat ≤ 127) :
    parseHexByte ['+', d] = (Form.hexValue (byteOf d)).map UInt8.ofNat := by
  have hbytes : encodeUtf8 [d] = [byteOf d] := encodeUtf8_ascii (by simpa using hd)
  show ((encodeUtf8 [d]).mapM Form.hexValue).bind _ = _
  rw [hbytes, List.mapM_cons, List.mapM_nil]
  cases hn : Form.hexValue (byteOf d) with
  | none => rfl
  | some n =>
    have hlt := hexValue_lt hn
    have hvalue : 16 * 0 + n = n := by omega
    show (if [d] ≠ [] ∧ 16 * 0 + n < 256 then some (UInt8.ofNat (16 * 0 + n)) else none) =
      some (UInt8.ofNat n)
    rw [hvalue, if_pos ⟨List.cons_ne_nil _ _, by omega⟩]

theorem parseHexByte_digits (hc : c.toNat ≤ 127) (hd : d.toNat ≤ 127) (hplus : c ≠ '+') :
    parseHexByte [c, d] = (Form.hexValue (byteOf c)).bind fun h =>
      (Form.hexValue (byteOf d)).map fun l => UInt8.ofNat (h * 16 + l) := by
  have hbytes : encodeUtf8 [c, d] = [byteOf c, byteOf d] :=
    encodeUtf8_ascii (by simpa using ⟨hc, hd⟩)
  unfold parseHexByte
  split
  next heq => exact absurd (List.cons.inj heq).1 hplus
  next =>
    dsimp only
    rw [hbytes, List.mapM_cons, List.mapM_cons, List.mapM_nil]
    cases hn : Form.hexValue (byteOf c) with
    | none => rfl
    | some h =>
      cases hm : Form.hexValue (byteOf d) with
      | none => rfl
      | some l =>
        have hh := hexValue_lt hn
        have hl := hexValue_lt hm
        have hvalue : 16 * (16 * 0 + h) + l = h * 16 + l := by omega
        show (if [c, d] ≠ [] ∧ 16 * (16 * 0 + h) + l < 256 then
          some (UInt8.ofNat (16 * (16 * 0 + h) + l)) else none) = some (UInt8.ofNat (h * 16 + l))
        rw [hvalue, if_pos ⟨List.cons_ne_nil _ _, by omega⟩]

theorem parseHexByte_high (hc : 127 < c.toNat) : parseHexByte [c] = none := by
  obtain ⟨b, tail, hbytes⟩ := List.exists_cons_of_ne_nil (utf8EncodeChar_ne_nil c)
  have hb : 127 < b.toNat := utf8EncodeChar_high hc (by rw [hbytes]; exact List.mem_cons_self)
  have hencode : encodeUtf8 [c] = b :: tail := by
    rw [encodeUtf8_cons, hbytes, encodeUtf8_nil, List.append_nil]
  unfold parseHexByte
  split
  next heq => exact absurd (List.cons.inj heq).2 (by simp)
  next =>
    dsimp only
    rw [hencode, List.mapM_cons, hexValue_high hb]
    rfl

end Digits

section Runs

variable {s rest : Text} {i : Nat} {c : Char}

theorem utf8Size_eq_one (h : c.utf8Size = 1) : c.toNat ≤ 127 := by
  by_contra hc
  have hsize := UInt32.le_iff_toNat_le.mp (Char.utf8Size_eq_one_iff.mp h)
  exact hc hsize

theorem encodeUtf8_single (c : Char) : (encodeUtf8 [c]).length = c.utf8Size := by
  rw [encodeUtf8_cons, encodeUtf8_nil, List.append_nil, String.length_utf8EncodeChar]

theorem step (hat : StandsAt s i (c :: rest)) : StandsAt s (i + c.utf8Size) rest := by
  have hsplit : StandsAt s i ([c] ++ rest) := hat
  have h := hsplit.append
  rwa [encodeUtf8_single] at h

theorem unescape_append {w tail : Bytes} (hw : ∀ b ∈ w, b ≠ byteOf '%' ∧ b ≠ byteOf '+') :
    Form.unescape (w ++ tail) = w ++ Form.unescape tail := by
  induction w with
  | nil => rfl
  | cons b w ih =>
    obtain ⟨hpercent, hplus⟩ := hw b List.mem_cons_self
    have hrest := ih fun b' hb' => hw b' (List.mem_cons_of_mem b hb')
    rw [List.cons_append, Form.unescape_plain hpercent hplus, hrest]
    rfl

/-- A character that is no per cent sign. -/
theorem percentBytes_char (hat : StandsAt s i (c :: rest)) (hc : c ≠ '%')
    (ih : DecodesIff (ReadsRight rest) (percentBytes s (i + c.utf8Size))
      (Form.unescape (encodeUtf8 rest))) :
    DecodesIff (ReadsRight (c :: rest)) (percentBytes s i) (Form.unescape (encodeUtf8 (c :: rest))) := by
  have hright : ReadsRight (c :: rest) ↔ ReadsRight rest := by
    rw [readsRight_cons]
    exact ⟨fun h => h.2, fun h => ⟨fun heq => absurd heq hc, h⟩⟩
  by_cases hplus : c = '+'
  · subst hplus
    have hget : (encodeUtf8 s)[i]? = some (byteOf '+') := by
      rw [hat.byte]
      rfl
    have hbytes : encodeUtf8 ('+' :: rest) = 43 :: encodeUtf8 rest := rfl
    rw [percentBytes_other hget (by decide), if_pos rfl, hbytes, unescape_plus]
    exact ih.prepend hright [32]
  · have hplain : ∀ b ∈ String.utf8EncodeChar c, b ≠ byteOf '%' ∧ b ≠ byteOf '+' := by
      intro b hb
      refine ⟨fun heq => hc ?_, fun heq => hplus ?_⟩
      · rw [heq] at hb
        exact Char.toNat_inj.mp (mem_utf8EncodeChar_ascii (by decide) hb)
      · rw [heq] at hb
        exact Char.toNat_inj.mp (mem_utf8EncodeChar_ascii (by decide) hb)
    rw [percentBytes_plain hat (encodeUtf8_cons c rest) hplain, String.length_utf8EncodeChar,
      encodeUtf8_cons, unescape_append hplain]
    exact ih.prepend hright (String.utf8EncodeChar c)

/-- A per cent sign that is kept. -/
theorem percentBytes_keep (hkeep : percentBytes s i = (percentBytes s (i + 1)).map ([37] ++ ·))
    (hnone : Form.escaped (encodeUtf8 rest) = none) (hread : ¬ Misread rest)
    (ih : DecodesIff (ReadsRight rest) (percentBytes s (i + 1)) (Form.unescape (encodeUtf8 rest))) :
    DecodesIff (ReadsRight ('%' :: rest)) (percentBytes s i)
      (Form.unescape (encodeUtf8 ('%' :: rest))) := by
  have hbytes : encodeUtf8 ('%' :: rest) = 37 :: encodeUtf8 rest := rfl
  rw [hkeep, hbytes, unescape_keep hnone]
  refine ih.prepend ?_ [37]
  rw [readsRight_cons]
  exact ⟨fun h => h.2, fun h => ⟨fun _ => hread, h⟩⟩

theorem misread_cons_cons {c d : Char} (hc : c.utf8Size = 1) (hd : d.utf8Size = 1) :
    Misread (c :: d :: rest) ↔ c = '+' ∧ d ∈ hexDigits := by
  constructor
  · intro h
    cases h with
    | long h => omega
    | split _ h => omega
    | plus h => exact ⟨rfl, h⟩
  · rintro ⟨rfl, h⟩
    exact .plus h

/-- A per cent sign with two ASCII characters behind it. -/
theorem percentBytes_ascii {d : Char} (hat : StandsAt s i ('%' :: c :: d :: rest))
    (hc : c.utf8Size = 1) (hd : d.utf8Size = 1)
    (hfar : DecodesIff (ReadsRight rest) (percentBytes s (i + 3)) (Form.unescape (encodeUtf8 rest)))
    (hnear : DecodesIff (ReadsRight (c :: d :: rest)) (percentBytes s (i + 1))
      (Form.unescape (encodeUtf8 (c :: d :: rest)))) :
    DecodesIff (ReadsRight ('%' :: c :: d :: rest)) (percentBytes s i)
      (Form.unescape (encodeUtf8 ('%' :: c :: d :: rest))) := by
  have hcn := utf8Size_eq_one hc
  have hdn := utf8Size_eq_one hd
  have hbytes : encodeUtf8 (c :: d :: rest) = byteOf c :: byteOf d :: encodeUtf8 rest := by
    rw [encodeUtf8_cons, encodeUtf8_cons, utf8EncodeChar_ascii hcn, utf8EncodeChar_ascii hdn]
    rfl
  have hlen := hat.length
  have hsize : (encodeUtf8 ('%' :: c :: d :: rest)).length = (encodeUtf8 rest).length + 3 := by
    show (37 :: encodeUtf8 (c :: d :: rest)).length = _
    rw [hbytes]
    rfl
  have hget : (encodeUtf8 s)[i]? = some (byteOf '%') := by
    rw [hat.byte]
    rfl
  have hpair : (encodeUtf8 [c, d]).length = 2 := by
    rw [encodeUtf8_cons, List.length_append, encodeUtf8_single, String.length_utf8EncodeChar, hc, hd]
  have hnext : StandsAt s (i + 1) ([c, d] ++ rest) := step hat
  have hslice := hnext.slice
  rw [hpair] at hslice
  have hread := (percentBytes_percent hget (by omega)).2 [c, d] hslice
  have hescaped := escaped_cons (byteOf c) (byteOf d) (encodeUtf8 rest)
  rw [← hbytes] at hescaped
  by_cases hplus : c = '+'
  · subst hplus
    have hnone : Form.escaped (encodeUtf8 ('+' :: d :: rest)) = none := hescaped
    rw [parseHexByte_sign hdn] at hread
    cases hn : Form.hexValue (byteOf d) with
    | none =>
      rw [hn] at hread
      have hdigit : d ∉ hexDigits := by
        rw [← hexValue_ascii hdn, hn]
        decide
      refine percentBytes_keep (hread.2 rfl) hnone ?_ hnear
      rw [misread_cons_cons hc hd]
      exact fun h => hdigit h.2
    | some n =>
      rw [hn] at hread
      have hdigit : d ∈ hexDigits := by
        rw [← hexValue_ascii hdn, hn]
        rfl
      have hlt := hexValue_lt hn
      refine .inr ⟨fun h => (readsRight_cons.1 h).1 rfl (.plus hdigit), ?_⟩
      rw [hread.1 _ rfl]
      cases percentBytes s (i + 3) with
      | error e => exact .inl ⟨e, rfl⟩
      | ok out =>
        refine .inr ⟨[], .ofNat n, out, Form.unescape (encodeUtf8 ('+' :: d :: rest)), rfl, ?_, ?_⟩
        · exact unescape_keep hnone
        · rw [UInt8.toNat_ofNat']
          omega
  · have hright : ¬ Misread (c :: d :: rest) := by
      rw [misread_cons_cons hc hd]
      exact fun h => hplus h.1
    rw [parseHexByte_digits hcn hdn hplus, ← hescaped] at hread
    cases hbyte : Form.escaped (encodeUtf8 (c :: d :: rest)) with
    | none =>
      rw [hbyte] at hread
      exact percentBytes_keep (hread.2 rfl) hbyte hright hnear
    | some n =>
      rw [hbyte] at hread
      rw [hbyte] at hescaped
      obtain ⟨h, hh, hrest⟩ := Option.bind_eq_some_iff.mp hescaped.symm
      obtain ⟨l, hl, rfl⟩ := Option.map_eq_some_iff.mp hrest
      have hcdigit : c ∈ hexDigits := by
        rw [← hexValue_ascii hcn, hh]
        rfl
      have hddigit : d ∈ hexDigits := by
        rw [← hexValue_ascii hdn, hl]
        rfl
      have hout : '%' ∉ hexDigits := by decide
      have hiff : ReadsRight ('%' :: c :: d :: rest) ↔ ReadsRight rest := by
        rw [readsRight_cons, readsRight_cons, readsRight_cons]
        constructor
        · exact fun h => h.2.2.2
        · exact fun h => ⟨fun _ => hright, fun heq => absurd (heq ▸ hcdigit) hout,
            fun heq => absurd (heq ▸ hddigit) hout, h⟩
      have hexpected : Form.unescape (encodeUtf8 ('%' :: c :: d :: rest)) =
          [UInt8.ofNat (h * 16 + l)] ++ Form.unescape (encodeUtf8 rest) := by
        show Form.unescape (37 :: encodeUtf8 (c :: d :: rest)) = _
        rw [hbytes, Form.unescape_escape hh hl]
        rfl
      rw [hread.1 _ rfl, hexpected]
      exact hfar.prepend hiff _

theorem strSlice_fault {j : Nat} (hlen : j ≤ (encodeUtf8 s).length) (hij : i ≤ j)
    (hmid : isCharBoundary s j = false) : strSlice s i j = .error .midCharacter := by
  have hrange : ¬ (j < i ∨ (encodeUtf8 s).length < j) := by omega
  rw [strSlice, if_neg (by simpa using hrange), hmid, Bool.and_false]
  rfl

/-- A per cent sign in front of what is misread because the next two bytes cut a character. -/
theorem percentBytes_cut (hat : StandsAt s i ('%' :: rest)) (hlong : i + 3 ≤ (encodeUtf8 s).length)
    (hmid : isCharBoundary s (i + 3) = false) (hread : Misread rest) (expected : Bytes) :
    DecodesIff (ReadsRight ('%' :: rest)) (percentBytes s i) expected := by
  have hget : (encodeUtf8 s)[i]? = some (byteOf '%') := by
    rw [hat.byte]
    rfl
  have hslice : strSlice s (i + 1) (i + 3) = .error .midCharacter :=
    strSlice_fault hlong (by omega) hmid
  refine .inr ⟨fun h => (readsRight_cons.1 h).1 rfl hread, .inl ⟨.midCharacter, ?_⟩⟩
  exact (percentBytes_percent hget (by omega)).1 _ hslice

/-- A per cent sign in front of fewer than two bytes. -/
theorem percentBytes_last (hat : StandsAt s i ('%' :: rest)) (hshort : (encodeUtf8 rest).length < 2)
    (hread : ¬ Misread rest)
    (ih : DecodesIff (ReadsRight rest) (percentBytes s (i + 1)) (Form.unescape (encodeUtf8 rest))) :
    DecodesIff (ReadsRight ('%' :: rest)) (percentBytes s i)
      (Form.unescape (encodeUtf8 ('%' :: rest))) := by
  have hget : (encodeUtf8 s)[i]? = some (byteOf '%') := by
    rw [hat.byte]
    rfl
  have hlen := hat.length
  have hcount : (encodeUtf8 ('%' :: rest)).length = (encodeUtf8 rest).length + 1 := rfl
  refine percentBytes_keep (percentBytes_short hget (by omega)) ?_ hread ih
  rcases hbytes : encodeUtf8 rest with _ | ⟨x, _ | ⟨y, tail⟩⟩
  · rfl
  · rfl
  · rw [hbytes, List.length_cons, List.length_cons] at hshort
    omega

/-- A per cent sign in front of a character of two bytes. -/
theorem percentBytes_two (hat : StandsAt s i ('%' :: c :: rest)) (hc : c.utf8Size = 2)
    (ih : DecodesIff (ReadsRight (c :: rest)) (percentBytes s (i + 1))
      (Form.unescape (encodeUtf8 (c :: rest)))) :
    DecodesIff (ReadsRight ('%' :: c :: rest)) (percentBytes s i)
      (Form.unescape (encodeUtf8 ('%' :: c :: rest))) := by
  have hget : (encodeUtf8 s)[i]? = some (byteOf '%') := by
    rw [hat.byte]
    rfl
  have hnext : StandsAt s (i + 1) ([c] ++ rest) := step hat
  have hlen := hnext.length
  rw [encodeUtf8_append, List.length_append, encodeUtf8_single, hc] at hlen
  have hslice := hnext.slice
  rw [encodeUtf8_single, hc] at hslice
  have hhigh : 127 < c.toNat := by
    by_contra hlow
    have hone : c.utf8Size = 1 :=
      Char.utf8Size_eq_one_iff.mpr (UInt32.le_iff_toNat_le.mpr (Nat.not_lt.mp hlow))
    omega
  have hkeep := ((percentBytes_percent hget (by omega)).2 [c] hslice).2 (parseHexByte_high hhigh)
  refine percentBytes_keep hkeep ?_ ?_ ih
  · obtain ⟨b, tail, hbytes⟩ := List.exists_cons_of_ne_nil (utf8EncodeChar_ne_nil c)
    have hb : 127 < b.toNat := utf8EncodeChar_high hhigh (by rw [hbytes]; exact List.mem_cons_self)
    rw [encodeUtf8_cons, hbytes, List.cons_append]
    cases tail ++ encodeUtf8 rest with
    | nil => rfl
    | cons x tail => rw [escaped_cons, hexValue_high hb, Option.bind_none]
  · intro h
    cases h with
    | long h => omega
    | split h _ => omega
    | plus _ => exact absurd hc (by decide)

/-- The loop of `percent_decode` is the decoding of forms, or goes wrong at a per cent sign that is
misread. -/
theorem percentBytes_outcome (hat : StandsAt s i rest) :
    DecodesIff (ReadsRight rest) (percentBytes s i) (Form.unescape (encodeUtf8 rest)) := by
  induction hn : rest.length using Nat.strongRecOn generalizing rest i with
  | _ n ih =>
    subst hn
    rcases rest with _ | ⟨c, rest⟩
    · have hlen := hat.length
      have hnil : Form.unescape (encodeUtf8 []) = [] := by
        rw [encodeUtf8_nil, Form.unescape]
      rw [encodeUtf8_nil, List.length_nil] at hlen
      rw [percentBytes_end (by omega), hnil]
      exact .inl ⟨readsRight_nil, rfl⟩
    have hrest := ih rest.length (Nat.lt_succ_self _) (step hat) rfl
    by_cases hc : c = '%'
    · subst hc
      have hnear : DecodesIff (ReadsRight rest) (percentBytes s (i + 1))
          (Form.unescape (encodeUtf8 rest)) := hrest
      rcases rest with _ | ⟨c, rest⟩
      · exact percentBytes_last hat (by decide) (by intro h; cases h) hnear
      have hnext : StandsAt s (i + 1) (c :: rest) := step hat
      have hlen := (step hnext).length
      have hpos := c.utf8Size_pos
      by_cases htwo : c.utf8Size = 2
      · exact percentBytes_two hat htwo hnear
      by_cases hlong : 2 < c.utf8Size
      · have hmid := not_isCharBoundary hnext (k := 2) (by omega) hlong
        exact percentBytes_cut hat (by omega) hmid (.long hlong) _
      have hone : c.utf8Size = 1 := by omega
      rcases rest with _ | ⟨d, rest⟩
      · refine percentBytes_last hat ?_ ?_ hnear
        · rw [encodeUtf8_single, hone]
          omega
        · intro h
          cases h
          omega
      have hthird : StandsAt s (i + 1 + c.utf8Size) (d :: rest) := step hnext
      rw [hone] at hthird
      have hdpos := d.utf8Size_pos
      by_cases hd : d.utf8Size = 1
      · have hfar : StandsAt s (i + 3) rest := by
          have h := step hthird
          rwa [hd] at h
        refine percentBytes_ascii hat hone hd (ih rest.length ?_ hfar rfl) hnear
        rw [List.length_cons, List.length_cons, List.length_cons]
        omega
      · have hmid := not_isCharBoundary hthird (k := 1) (by omega) (by omega)
        have hlen' := (step hthird).length
        exact percentBytes_cut hat (by omega) hmid (.split hone (by omega)) _
    · exact percentBytes_char hat hc hrest

/-- No text that `percent_encode` makes is misread. -/
theorem readsRight_percentEncode (s : Text) : ReadsRight (percentEncode s) := by
  have hdigit : ∀ n < 16, ∃ d, Kernleaf.hexUpper n = [d] ∧ d.utf8Size = 1 ∧ d ≠ '+' ∧ d ≠ '%' := by
    have hall : ∀ n : Fin 16, (Kernleaf.hexUpper n).length = 1 ∧
        (Kernleaf.hexUpper n).all (fun d => d.utf8Size = 1 ∧ d ≠ '+' ∧ d ≠ '%') = true := by
      decide
    intro n hn
    obtain ⟨hlength, htest⟩ := hall ⟨n, hn⟩
    obtain ⟨d, hd⟩ := List.length_eq_one_iff.mp hlength
    refine ⟨d, hd, ?_⟩
    rw [hd] at htest
    simpa using htest
  show ReadsRight ((encodeUtf8 s).flatMap Kernleaf.urlByte)
  induction encodeUtf8 s with
  | nil => exact readsRight_nil
  | cons b bytes ih =>
    rw [List.flatMap_cons, Kernleaf.urlByte]
    split
    next hb =>
      have hne := Kernleaf.ofNat_ne_of_isUnreserved hb (show '%'.toNat ∈ _ by decide)
      exact readsRight_cons.2 ⟨fun heq => absurd heq hne, ih⟩
    next =>
      have hlt := b.toNat_lt
      obtain ⟨h, hh, hhsize, hhplus, hhpercent⟩ := hdigit (b.toNat / 16) (by omega)
      obtain ⟨l, hl, hlsize, _, hlpercent⟩ := hdigit (b.toNat % 16) (Nat.mod_lt _ (by decide))
      rw [hh, hl]
      show ReadsRight ('%' :: h :: l :: bytes.flatMap Kernleaf.urlByte)
      rw [readsRight_cons, readsRight_cons, readsRight_cons, misread_cons_cons hhsize hlsize]
      exact ⟨fun _ hread => hhplus hread.1, fun heq => absurd heq hhpercent,
        fun heq => absurd heq hlpercent, ih⟩

end Runs

section Decoders

theorem percentDecode_eq_map (s : Text) :
    CoreUrl.percentDecode s = (percentBytes s 0).map decodeUtf8Lossy := by
  unfold CoreUrl.percentDecode
  cases percentBytes s 0 with
  | error e => rfl
  | ok out => rfl

theorem percentDecode_eq_iff (s : Text) :
    CoreUrl.percentDecode s = .ok (Form.decode s) ↔ ReadsRight s := by
  rw [percentDecode_eq_map]
  rcases percentBytes_outcome (standsAt_start s) with ⟨hright, heq⟩ | ⟨hwrong, hdiffers⟩
  · rw [heq]
    exact ⟨fun _ => hright, fun _ => rfl⟩
  · exact ⟨fun heq => absurd heq (lossy_ne_of_differs hdiffers), fun hright => absurd hright hwrong⟩

/-- `url_decode` decodes forms; `percent_decode` does where it misreads no per cent sign, and so it
reads back what `percent_encode` wrote. -/
theorem decoders (s : Text) :
    Csrf.urlDecode s = Form.decode s ∧
      (CoreUrl.percentDecode s = .ok (Form.decode s) ↔ ReadsRight s) ∧
      CoreUrl.percentDecode (percentEncode s) = .ok s := by
  refine ⟨?_, percentDecode_eq_iff s, ?_⟩
  · unfold Csrf.urlDecode Form.decode
    rw [urlBytes_eq, List.drop_zero]
  · have hback : Form.decode (percentEncode s) = s := Kernleaf.decode_urlEncode s
    rw [(percentDecode_eq_iff _).mpr (readsRight_percentEncode s), hback]

/-- A character cut by an escape is a panic, and a sign is taken for a digit. -/
theorem percentDecode_misreads :
    CoreUrl.percentDecode "a%1é".toList = .error .midCharacter ∧
      CoreUrl.percentDecode "%+f".toList = .ok [Char.ofNat 15] ∧
      Form.decode "%+f".toList = "% f".toList := by
  have hcut : percentBytes "a%1é".toList 0 = .error .midCharacter := by decide +kernel
  have hsign : percentBytes "%+f".toList 0 = .ok (encodeUtf8 [Char.ofNat 15]) := by decide +kernel
  have hkeep : Form.unescape (encodeUtf8 "%+f".toList) = encodeUtf8 "% f".toList := by decide +kernel
  refine ⟨?_, ?_, ?_⟩
  · rw [percentDecode_eq_map, hcut]
    rfl
  · rw [percentDecode_eq_map, hsign]
    exact congrArg Except.ok (decodeUtf8Lossy_encodeUtf8 _)
  · rw [Form.decode, hkeep, decodeUtf8Lossy_encodeUtf8]

end Decoders

end Kernway
