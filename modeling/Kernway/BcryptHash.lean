import Kernway.BcryptBase64
import Kernway.Blowfish
import Kernway.Decimal
import Kernway.Token

namespace Kernway

namespace Bcrypt

/-- `key_bytes`: the password and a NUL. -/
def keyBytes (password : Text) : KeyStream :=
  ⟨encodeUtf8 password ++ [0], List.append_ne_nil_of_right_ne_nil _ (List.cons_ne_nil 0 [])⟩

/-- The part of `parse_hash` from the `$` at `i` to the one behind the cost, with the index of the
rest. Each index into the bytes comes with its bound. -/
def parseCost (b : Bytes) (i : Nat) : Option (UInt32 × Nat) :=
  if h : b.length ≤ i then none
  else if b[i] ≠ byteOf '$' then none
  else
    let i := i + 1
    if h : b.length ≤ i + 2 then none
    else if b[i + 2] ≠ byteOf '$' then none
    else
      ((decodeUtf8 ((b.drop i).take 2)).bind parseU32).bind fun cost =>
        if 4 ≤ cost ∧ cost ≤ 31 then some (cost, i + 3) else none

/-- What `parse_hash` checks before it cuts the text. -/
def parseHeader (b : Bytes) : Option (UInt32 × Nat) :=
  if h : b.length < 4 then none
  else if b[0] ≠ byteOf '$' ∨ b[1] ≠ byteOf '2' then none
  else parseCost b (if b[2] ≠ byteOf '$' then 3 else 2)

/-- The part of `parse_hash` that cuts what stands behind the header. -/
def cutHash (cost : UInt32) (rest : Text) : Except SliceFault (Option (UInt32 × Salt × Text)) :=
  if (encodeUtf8 rest).length < 53 then .ok none
  else do
    let saltB64 ← strSlice rest 0 22
    let hashB64 ← strSlice rest 22 53
    .ok ((decodeB64 16 (encodeUtf8 saltB64)).bind fun salt =>
      if h : salt.length = 16 then some (cost, ⟨salt, h⟩, hashB64) else none)

def parseHash (hash : Text) : Except SliceFault (Option (UInt32 × Salt × Text)) :=
  match parseHeader (encodeUtf8 hash) with
  | none => .ok none
  | some (cost, i) => do
    let rest ← strSlice hash i (encodeUtf8 hash).length
    cutHash cost rest

def constantTimeEq (a b : Bytes) : Bool :=
  if a.length ≠ b.length then false
  else (List.zipWith (· ^^^ ·) a b).foldl (· ||| ·) 0 == 0

def verifyBcrypt (password hash : Text) : Except SliceFault Bool := do
  match ← parseHash hash with
  | none => .ok false
  | some (cost, salt, expected) =>
    let raw := bcryptRaw cost salt (keyBytes password)
    .ok (constantTimeEq (encodeUtf8 (encodeB64 raw)) (encodeUtf8 expected))

/-- The format `{:02}`. -/
def twoDigits (n : UInt32) : Text :=
  let digits := Nat.toDigits 10 n.toNat
  List.replicate (2 - digits.length) '0' ++ digits

/-- `cost.clamp(4, 31)`. -/
def clampCost (cost : UInt32) : UInt32 := if cost < 4 then 4 else if 31 < cost then 31 else cost

/-- `hash_bcrypt`, with the bytes that the system's randomness gave for the salt. -/
def hashBcrypt (salt : Salt) (password : Text) (cost : UInt32) : Text :=
  let cost := clampCost cost
  let raw := bcryptRaw cost salt (keyBytes password)
  "$2b$".toList ++ twoDigits cost ++ '$' :: (encodeB64 salt.1 ++ encodeB64 raw)

section Header

/-- A version letter or none, and a cost of two characters that is in range. -/
structure Header (version digits : Text) (cost : UInt32) : Prop where
  version : version = [] ∨ ∃ c : Char, version = [c] ∧ c.toNat ≤ 127 ∧ c ≠ '$'
  two : digits.length = 2
  read : parseU32 digits = some cost
  range : 4 ≤ cost ∧ cost ≤ 31

/-- The text of a hash whose header is well formed, with what stands behind it. -/
def HasHeader (hash : Text) (cost : UInt32) (rest : Text) : Prop :=
  ∃ version digits, Header version digits cost ∧
    hash = '$' :: '2' :: (version ++ '$' :: (digits ++ '$' :: rest))

theorem parseCost_iff {b : Bytes} {i j : Nat} {cost : UInt32} :
    parseCost b i = some (cost, j) ↔
      b[i]? = some (byteOf '$') ∧ b[i + 3]? = some (byteOf '$') ∧
        (decodeUtf8 ((b.drop (i + 1)).take 2)).bind parseU32 = some cost ∧
        (4 ≤ cost ∧ cost ≤ 31) ∧ j = i + 4 := by
  unfold parseCost
  constructor
  · intro h
    split at h
    next => cases h
    next hi =>
      split at h
      next => cases h
      next hdollar =>
        dsimp only at h
        split at h
        next => cases h
        next hi' =>
          split at h
          next => cases h
          next hdollar' =>
            obtain ⟨cost', hcost, h⟩ := Option.bind_eq_some_iff.mp h
            split at h
            next hrange =>
              cases h
              refine ⟨?_, ?_, hcost, hrange, rfl⟩
              · rw [List.getElem?_eq_getElem (by omega), not_not.mp hdollar]
              · rw [List.getElem?_eq_getElem (by omega)]
                exact congrArg some (not_not.mp hdollar')
            next => cases h
  · rintro ⟨hdollar, hdollar', hcost, hrange, rfl⟩
    obtain ⟨hi, hdollar⟩ := List.getElem?_eq_some_iff.mp hdollar
    obtain ⟨hi', hdollar'⟩ := List.getElem?_eq_some_iff.mp hdollar'
    rw [dif_neg (by omega), if_neg (not_not.mpr hdollar)]
    dsimp only
    rw [dif_neg (by omega), if_neg (not_not.mpr hdollar'), hcost, Option.bind_some, if_pos hrange]

theorem parseHeader_iff {b : Bytes} {cost : UInt32} {j : Nat} :
    parseHeader b = some (cost, j) ↔
      b[0]? = some (byteOf '$') ∧ b[1]? = some (byteOf '2') ∧
        ((b[2]? = some (byteOf '$') ∧ parseCost b 2 = some (cost, j)) ∨
          ((∃ x, b[2]? = some x ∧ x ≠ byteOf '$') ∧ parseCost b 3 = some (cost, j))) := by
  unfold parseHeader
  constructor
  · intro h
    split at h
    next => cases h
    next hlen =>
      split at h
      next => cases h
      next hstart =>
        obtain ⟨h0, h1⟩ := not_or.mp hstart
        refine ⟨?_, ?_, ?_⟩
        · rw [List.getElem?_eq_getElem (by omega), not_not.mp h0]
        · rw [List.getElem?_eq_getElem (by omega), not_not.mp h1]
        · rw [List.getElem?_eq_getElem (by omega)]
          split at h
          next h2 => exact .inr ⟨⟨_, rfl, h2⟩, h⟩
          next h2 => exact .inl ⟨congrArg some (not_not.mp h2), h⟩
  · rintro ⟨h0, h1, h⟩
    obtain ⟨_, h0⟩ := List.getElem?_eq_some_iff.mp h0
    obtain ⟨_, h1⟩ := List.getElem?_eq_some_iff.mp h1
    have hlen : 4 ≤ b.length := by
      rcases h with ⟨_, h⟩ | ⟨_, h⟩
      · obtain ⟨hi, _⟩ := List.getElem?_eq_some_iff.mp (parseCost_iff.1 h).2.1
        omega
      · obtain ⟨hi, _⟩ := List.getElem?_eq_some_iff.mp (parseCost_iff.1 h).1
        omega
    rw [dif_neg (by omega), if_neg (not_or.mpr ⟨not_not.mpr h0, not_not.mpr h1⟩)]
    rcases h with ⟨h2, h⟩ | ⟨⟨x, h2, hx⟩, h⟩
    · obtain ⟨_, h2⟩ := List.getElem?_eq_some_iff.mp h2
      rw [if_neg (not_not.mpr h2), h]
    · obtain ⟨_, rfl⟩ := List.getElem?_eq_some_iff.mp h2
      rw [if_pos hx, h]

variable {s rest : Text} {cost : UInt32} {i j : Nat}

/-- The characters of the cost, from its bytes. -/
theorem text_of_parseCost (hat : StandsAt s i rest)
    (h : parseCost (encodeUtf8 s) i = some (cost, j)) :
    ∃ digits rest', digits.length = 2 ∧ parseU32 digits = some cost ∧
      rest = '$' :: (digits ++ '$' :: rest') ∧ StandsAt s j rest' := by
  obtain ⟨hdollar, hdollar', hcost, _, rfl⟩ := parseCost_iff.1 h
  obtain ⟨r, rfl, hat₁⟩ := hat.tail_of_byte (by decide) hdollar
  obtain ⟨digits, hdigits, hread⟩ := Option.bind_eq_some_iff.mp hcost
  have hascii := ascii_of_parseU32 hread
  have hbytes := encodeUtf8_of_decodeUtf8 hdigits
  obtain ⟨hlong, _⟩ := List.getElem?_eq_some_iff.mp hdollar'
  have htwo : digits.length = 2 := by
    have hlen := congrArg List.length hbytes
    rw [encodeUtf8_ascii hascii, List.length_map, List.length_take, List.length_drop] at hlen
    omega
  obtain ⟨d, d', rfl⟩ := List.length_eq_two.mp htwo
  have hd : d.toNat ≤ 127 := hascii d (by simp)
  have hd' : d'.toNat ≤ 127 := hascii d' (by simp)
  have hbyte : ∀ k < 2, (encodeUtf8 s)[i + 1 + k]? = ([d, d'].map byteOf)[k]? := by
    intro k hk
    rw [← encodeUtf8_ascii hascii, hbytes, List.getElem?_take_of_lt hk, List.getElem?_drop]
  obtain ⟨r, rfl, hat₂⟩ := hat₁.tail_of_byte hd (hbyte 0 (by decide))
  obtain ⟨r, rfl, hat₃⟩ := hat₂.tail_of_byte hd' (hbyte 1 (by decide))
  obtain ⟨r, rfl, hat₄⟩ := hat₃.tail_of_byte (by decide) hdollar'
  exact ⟨[d, d'], r, rfl, hread, rfl, hat₄⟩

theorem parseCost_text {digits : Text} (htwo : digits.length = 2)
    (hread : parseU32 digits = some cost) (hrange : 4 ≤ cost ∧ cost ≤ 31)
    (hat : StandsAt s i ('$' :: (digits ++ '$' :: rest))) :
    parseCost (encodeUtf8 s) i = some (cost, i + 4) ∧ StandsAt s (i + 4) rest := by
  have hbytes := encodeUtf8_ascii (ascii_of_parseU32 hread)
  have hlen : (encodeUtf8 digits).length = 2 := by
    rw [hbytes, List.length_map, htwo]
  have hdollar := (hat.byte_eq_iff (d := '$') (by decide)).mpr rfl
  have hat₁ := hat.tail (d := '$') (by decide) rfl
  rw [List.tail_cons] at hat₁
  have hat₃ := hat₁.append
  rw [hlen] at hat₃
  have hdollar' := (hat₃.byte_eq_iff (d := '$') (by decide)).mpr rfl
  refine ⟨parseCost_iff.2 ⟨hdollar, hdollar', ?_, hrange, rfl⟩, ?_⟩
  · rw [hat₁.drop, encodeUtf8_append, ← hlen, List.take_left, decodeUtf8_encodeUtf8, Option.bind_some,
      hread]
  · exact hat₃.tail (d := '$') (by decide) rfl

/-- The header is read where the text has one, and the index is where it ends. -/
theorem parseHeader_of_hasHeader (h : HasHeader s cost rest) :
    ∃ i, parseHeader (encodeUtf8 s) = some (cost, i) ∧ StandsAt s i rest := by
  obtain ⟨version, digits, hh, hs⟩ := h
  have hat₀ := standsAt_start s
  have h0 : (encodeUtf8 s)[0]? = some (byteOf '$') :=
    (hat₀.byte_eq_iff (by decide)).mpr (by rw [hs]; rfl)
  have hat₁ := hat₀.tail (d := '$') (by decide) (by rw [hs]; rfl)
  have h1 : (encodeUtf8 s)[1]? = some (byteOf '2') :=
    (hat₁.byte_eq_iff (by decide)).mpr (by rw [hs]; rfl)
  have hat₂ := hat₁.tail (d := '2') (by decide) (by rw [hs]; rfl)
  have htail : s.tail.tail = version ++ '$' :: (digits ++ '$' :: rest) := by rw [hs]; rfl
  rw [htail] at hat₂
  rcases hh.version with rfl | ⟨c, rfl, hc, hne⟩
  · have h2 := (hat₂.byte_eq_iff (d := '$') (by decide)).mpr rfl
    obtain ⟨hcost, hat⟩ := parseCost_text hh.two hh.read hh.range hat₂
    exact ⟨_, parseHeader_iff.2 ⟨h0, h1, .inl ⟨h2, hcost⟩⟩, hat⟩
  · have h2 := (hat₂.byte_eq_iff hc).mpr rfl
    have hat₃ := hat₂.tail hc rfl
    obtain ⟨hcost, hat⟩ := parseCost_text hh.two hh.read hh.range hat₃
    have hbyte : byteOf c ≠ byteOf '$' := by
      intro heq
      have hnat := congrArg UInt8.toNat heq
      rw [toNat_byteOf hc, toNat_byteOf (by decide)] at hnat
      exact hne (Char.toNat_inj.mp hnat)
    exact ⟨_, parseHeader_iff.2 ⟨h0, h1, .inr ⟨⟨_, h2, hbyte⟩, hcost⟩⟩, hat⟩

theorem hasHeader_of_parseHeader (h : parseHeader (encodeUtf8 s) = some (cost, i)) :
    ∃ rest, HasHeader s cost rest ∧ StandsAt s i rest := by
  obtain ⟨h0, h1, h⟩ := parseHeader_iff.1 h
  obtain ⟨r₁, hr₁, hat₁⟩ := (standsAt_start s).tail_of_byte (by decide) h0
  obtain ⟨r₂, rfl, hat⟩ := hat₁.tail_of_byte (by decide) h1
  rcases h with ⟨_, h⟩ | ⟨⟨x, hx, hne⟩, h⟩
  · obtain ⟨digits, rest, htwo, hread, rfl, hrest⟩ := text_of_parseCost hat h
    exact ⟨rest, ⟨[], digits, ⟨.inl rfl, htwo, hread, (parseCost_iff.1 h).2.2.2.1⟩, hr₁⟩, hrest⟩
  · -- the byte before the second dollar is a whole character
    have hdollar := (parseCost_iff.1 h).1
    cases r₂ with
    | nil =>
      rw [hat.byte] at hx
      cases hx
    | cons c r₂ =>
      have hc := hat.ascii_of_next (by decide) hdollar
      obtain ⟨digits, rest, htwo, hread, rfl, hrest⟩ := text_of_parseCost (hat.tail hc rfl) h
      have hdiff : c ≠ '$' := by
        rintro rfl
        rw [(hat.byte_eq_iff hc).mpr rfl] at hx
        exact hne (Option.some.inj hx).symm
      exact ⟨rest, ⟨[c], digits, ⟨.inr ⟨c, rfl, hc, hdiff⟩, htwo, hread,
        (parseCost_iff.1 h).2.2.2.1⟩, hr₁⟩, hrest⟩

theorem parseHash_of_hasHeader (h : HasHeader s cost rest) : parseHash s = cutHash cost rest := by
  obtain ⟨i, hparse, hat⟩ := parseHeader_of_hasHeader h
  rw [parseHash, hparse]
  dsimp only
  rw [hat.slice_end]
  rfl

theorem parseHash_of_not_hasHeader (h : ¬ ∃ cost rest, HasHeader s cost rest) :
    parseHash s = .ok none := by
  unfold parseHash
  cases hparse : parseHeader (encodeUtf8 s) with
  | none => rfl
  | some v =>
    obtain ⟨cost, i⟩ := v
    obtain ⟨rest, hhead, _⟩ := hasHeader_of_parseHeader hparse
    exact absurd ⟨cost, rest, hhead⟩ h

theorem HasHeader.rest_unique {cost' : UInt32} {rest' : Text} (h : HasHeader s cost rest)
    (h' : HasHeader s cost' rest') : rest = rest' := by
  obtain ⟨i, hparse, hat⟩ := parseHeader_of_hasHeader h
  obtain ⟨i', hparse', hat'⟩ := parseHeader_of_hasHeader h'
  rw [hparse] at hparse'
  cases hparse'
  have hdrop := hat.drop
  rw [hat'.drop] at hdrop
  exact (encodeUtf8_injective hdrop).symm

end Header

/-- A stored text whose header is well formed and that is long enough, where the cut behind the
salt or the one behind the hash goes through a character. -/
def CutsCharacter (stored : Text) : Prop :=
  ∃ cost rest, HasHeader stored cost rest ∧ 53 ≤ (encodeUtf8 rest).length ∧
    ¬ (isCharBoundary rest 22 = true ∧ isCharBoundary rest 53 = true)

theorem strSlice_isOk_iff {s : Text} {i j : Nat} (hij : i ≤ j) (hj : j ≤ (encodeUtf8 s).length) :
    (∃ t, strSlice s i j = .ok t) ↔ isCharBoundary s i = true ∧ isCharBoundary s j = true := by
  have hrange : ¬ (j < i ∨ (encodeUtf8 s).length < j) := by omega
  rw [strSlice, if_neg (by simpa using hrange)]
  split
  next h => exact iff_of_true ⟨_, rfl⟩ (Bool.and_eq_true_iff.mp h)
  next h =>
    refine iff_of_false ?_ fun hboth => h (Bool.and_eq_true_iff.mpr hboth)
    rintro ⟨t, ht⟩
    cases ht

theorem cutHash_isOk_iff (cost : UInt32) (rest : Text) :
    (∃ r, cutHash cost rest = .ok r) ↔ ¬ (53 ≤ (encodeUtf8 rest).length ∧
      ¬ (isCharBoundary rest 22 = true ∧ isCharBoundary rest 53 = true)) := by
  unfold cutHash
  split
  next hshort => exact iff_of_true ⟨_, rfl⟩ fun h => absurd h.1 (by omega)
  next hlong =>
    have hstart := (standsAt_start rest).isCharBoundary
    have h₁ := strSlice_isOk_iff (s := rest) (i := 0) (j := 22) (by decide) (by omega)
    have h₂ := strSlice_isOk_iff (s := rest) (i := 22) (j := 53) (by decide) (by omega)
    have hlen : 53 ≤ (encodeUtf8 rest).length := by omega
    rw [not_and, not_not]
    constructor
    · rintro ⟨r, hr⟩ _
      cases hsalt : strSlice rest 0 22 with
      | error e => rw [hsalt] at hr; cases hr
      | ok salt =>
        cases hhash : strSlice rest 22 53 with
        | error e => rw [hsalt, hhash] at hr; cases hr
        | ok hash => exact h₂.mp ⟨hash, hhash⟩
    · intro h
      obtain ⟨hash, hhash⟩ := h₂.mpr (h hlen)
      obtain ⟨salt, hsalt⟩ := h₁.mpr ⟨hstart, (h hlen).1⟩
      rw [hsalt, hhash]
      exact ⟨_, rfl⟩

theorem parseHash_isOk_iff (stored : Text) :
    (∃ r, parseHash stored = .ok r) ↔ ¬ CutsCharacter stored := by
  by_cases h : ∃ cost rest, HasHeader stored cost rest
  · obtain ⟨cost, rest, hhead⟩ := h
    rw [parseHash_of_hasHeader hhead, cutHash_isOk_iff]
    apply not_congr
    constructor
    · exact fun hcut => ⟨cost, rest, hhead, hcut⟩
    · rintro ⟨cost', rest', hhead', hcut⟩
      rwa [hhead.rest_unique hhead']
  · rw [parseHash_of_not_hasHeader h]
    refine iff_of_true ⟨_, rfl⟩ ?_
    rintro ⟨cost, rest, hhead, _⟩
    exact h ⟨cost, rest, hhead⟩

theorem verifyBcrypt_isOk_iff (password stored : Text) :
    (∃ accepted, verifyBcrypt password stored = .ok accepted) ↔ ¬ CutsCharacter stored := by
  rw [← parseHash_isOk_iff]
  unfold verifyBcrypt
  cases hparse : parseHash stored with
  | error e =>
    refine iff_of_false ?_ ?_
    · rintro ⟨a, ha⟩
      cases ha
    · rintro ⟨r, hr⟩
      cases hr
  | ok r =>
    refine iff_of_true ?_ ⟨r, rfl⟩
    cases r with
    | none => exact ⟨false, rfl⟩
    | some v => exact ⟨_, rfl⟩

section RoundTrip

theorem clampCost_range (cost : UInt32) : 4 ≤ clampCost cost ∧ clampCost cost ≤ 31 := by
  unfold clampCost
  split
  next => decide
  next hlow =>
    split
    next => decide
    next hhigh => exact ⟨UInt32.not_lt.mp hlow, UInt32.not_lt.mp hhigh⟩

theorem header_twoDigits {cost : UInt32} (h : 4 ≤ cost ∧ cost ≤ 31) :
    Header ['b'] (twoDigits cost) cost := by
  have hall : ∀ n : Fin 32, (twoDigits (UInt32.ofNat n)).length = 2 ∧
      parseU32 (twoDigits (UInt32.ofNat n)) = some (UInt32.ofNat n) := by
    decide +kernel
  have hlt : cost.toNat < 32 := by
    have hle : cost.toNat ≤ 31 := h.2
    omega
  have hcost := hall ⟨cost.toNat, hlt⟩
  rw [UInt32.ofNat_toNat] at hcost
  exact ⟨.inr ⟨'b', rfl, by decide, by decide⟩, hcost.1, hcost.2, h⟩

theorem cutHash_encoded (cost : UInt32) (salt : Salt) {raw : Bytes} (hraw : raw.length = 23) :
    cutHash cost (encodeB64 salt.1 ++ encodeB64 raw) = .ok (some (cost, salt, encodeB64 raw)) := by
  have hsalt : (encodeUtf8 (encodeB64 salt.1)).length = 22 := by
    rw [length_encodeUtf8_encodeB64, salt.2]
  have hhash : (encodeUtf8 (encodeB64 raw)).length = 31 := by
    rw [length_encodeUtf8_encodeB64, hraw]
  have hlen : (encodeUtf8 (encodeB64 salt.1 ++ encodeB64 raw)).length = 53 := by
    rw [encodeUtf8_append, List.length_append, hsalt, hhash]
  have hat := standsAt_start (encodeB64 salt.1 ++ encodeB64 raw)
  have hcut₁ := hat.slice
  have hcut₂ := hat.append.slice_end
  rw [hsalt, Nat.zero_add] at hcut₁ hcut₂
  rw [hlen] at hcut₂
  have hdecode := decodeB64_encodeB64 salt.1
  rw [salt.2] at hdecode
  unfold cutHash
  rw [if_neg (by omega), hcut₁, hcut₂]
  show Except.ok _ = _
  rw [hdecode, Option.bind_some, dif_pos salt.2]

theorem hasHeader_hashBcrypt (salt : Salt) (password : Text) (cost : UInt32) :
    HasHeader (hashBcrypt salt password cost) (clampCost cost) (encodeB64 salt.1 ++
      encodeB64 (bcryptRaw (clampCost cost) salt (keyBytes password))) :=
  ⟨['b'], twoDigits (clampCost cost), header_twoDigits (clampCost_range cost), rfl⟩

theorem parseHash_hashBcrypt (salt : Salt) (password : Text) (cost : UInt32) :
    parseHash (hashBcrypt salt password cost) = .ok (some (clampCost cost, salt,
      encodeB64 (bcryptRaw (clampCost cost) salt (keyBytes password)))) := by
  rw [parseHash_of_hasHeader (hasHeader_hashBcrypt salt password cost),
    cutHash_encoded _ _ (length_bcryptRaw ..)]

theorem constantTimeEq_iff {s t : Text} :
    constantTimeEq (encodeUtf8 s) (encodeUtf8 t) = true ↔ s = t :=
  Csrf.verify_iff

theorem verifyBcrypt_hashBcrypt (salt : Salt) (password password' : Text) (cost : UInt32) :
    verifyBcrypt password' (hashBcrypt salt password cost) = .ok true ↔
      bcryptRaw (clampCost cost) salt (keyBytes password') =
        bcryptRaw (clampCost cost) salt (keyBytes password) := by
  unfold verifyBcrypt
  rw [parseHash_hashBcrypt]
  show Except.ok _ = _ ↔ _
  rw [Except.ok.injEq, constantTimeEq_iff, encodeB64_inj]
  rw [length_bcryptRaw, length_bcryptRaw]

end RoundTrip

end Bcrypt

end Kernway
