import Kernway.Results
import Kernway.SessionManager
import Kernway.SqliteRepository
import Kernway.Token

namespace Kernway.Jwt

inductive JwtError
  | malformed
  | unsupportedAlg
  | unknownKey
  | invalidSignature
  | expired
  | notYetValid
  | invalidIssuer
  | invalidAudience
  | serialization
  deriving DecidableEq

structure Claims where
  sub : Option Text := none
  iss : Option Text := none
  aud : Option Text := none
  exp : Option UInt64 := none
  nbf : Option UInt64 := none
  iat : Option UInt64 := none
  custom : List (Text × Json) := []

structure Validation where
  leewaySecs : UInt64 := 60
  validateExp : Bool := true
  validateNbf : Bool := true
  expectedIss : Option Text := none
  expectedAud : Option Text := none

/-- A key of a JWKS document before its numbers are decoded. -/
structure RawJwk where
  kty : Text
  kid : Option Text
  n : Option Text
  e : Option Text

/-- What `serde_json` makes of claims, headers and key sets, and `ring`'s check of a signature over
a message. -/
structure Codec where
  writeClaims : Claims → Option Bytes
  readClaims : Bytes → Option Claims
  readHeader : Bytes → Option Text
  readRsaHeader : Bytes → Option (Text × Option Text)
  readKeys : Bytes → Option (List RawJwk)
  rsaVerify : (n e message signature : Bytes) → Bool

def headerJson : Text := "\x7b\"alg\":\"HS256\",\"typ\":\"JWT\"\x7d".toList

/-- The three parts of a token. -/
def parts (token : Text) : Except JwtError (Text × Text × Text) :=
  match token.splitOn '.' with
  | [header, payload, signature] => .ok (header, payload, signature)
  | _ => .error .malformed

def signingInput (header payload : Text) : Text := header ++ '.' :: payload

/-- An early return of an error. -/
def refuse (c : Bool) (e : JwtError) : Except JwtError Unit := if c then .error e else .ok ()

def validateClaims (claims : Claims) (now : UInt64) (validation : Validation) :
    Except JwtError Unit := do
  refuse (validation.validateExp &&
    claims.exp.any fun exp => decide (now > saturatingAdd exp validation.leewaySecs)) .expired
  refuse (validation.validateNbf &&
    claims.nbf.any fun nbf => decide (saturatingAdd now validation.leewaySecs < nbf)) .notYetValid
  refuse (validation.expectedIss.any fun iss => decide (claims.iss ≠ some iss)) .invalidIssuer
  refuse (validation.expectedAud.any fun aud => decide (claims.aud ≠ some aud)) .invalidAudience

section Codecs

variable (codec : Codec)

/-- The claims in the payload of a token whose signature is right. -/
def trusted (payload : Text) (now : UInt64) (validation : Validation) :
    Except JwtError Claims := do
  let bytes ← (b64urlDecode payload).elim (.error .malformed) .ok
  let claims ← (codec.readClaims bytes).elim (.error .malformed) .ok
  validateClaims claims now validation
  return claims

/-- The signature that the holder of a key makes of a header and a payload. -/
def signature (key : Bytes) (header payload : Text) : Text :=
  b64urlEncode (hmacSha256 key (encodeUtf8 (signingInput header payload)))

/-- `Jwt::encode`. -/
def encode (key : Bytes) (claims : Claims) : Except JwtError Text := do
  let payload ← (codec.writeClaims claims).elim (.error .serialization) .ok
  let header := b64urlEncode (encodeUtf8 headerJson)
  let payload := b64urlEncode payload
  return signingInput header payload ++ '.' :: signature key header payload

/-- `Jwt::decode_with`. -/
def decodeWith (key : Bytes) (token : Text) (now : UInt64) (validation : Validation) :
    Except JwtError Claims := do
  let (header, payload, sig) ← parts token
  refuse (!Csrf.verify sig (signature key header payload)) .invalidSignature
  let bytes ← (b64urlDecode header).elim (.error .malformed) .ok
  let alg ← (codec.readHeader bytes).elim (.error .malformed) .ok
  refuse (alg ≠ "HS256".toList) .unsupportedAlg
  trusted codec payload now validation

structure RsaKey where
  kid : Option Text
  n : Bytes
  e : Bytes

abbrev Jwks := List RsaKey

/-- `Jwks::from_json`: the RSA keys whose numbers are there and decode. -/
def Jwks.fromJson (bytes : Bytes) : Except JwtError Jwks := do
  let raw ← (codec.readKeys bytes).elim (.error .malformed) .ok
  return (raw.filter fun k => k.kty = "RSA".toList).filterMap fun k => do
    let n ← k.n.bind b64urlDecode
    let e ← k.e.bind b64urlDecode
    return ⟨k.kid, n, e⟩

def Jwks.find (keys : Jwks) : Option Text → Option RsaKey
  | some kid => List.find? (fun k => k.kid = some kid) keys
  | none => keys.head?

/-- `Jwks::verify`. -/
def Jwks.verify (keys : Jwks) (token : Text) (now : UInt64) (validation : Validation) :
    Except JwtError Claims := do
  let (header, payload, sig) ← parts token
  let bytes ← (b64urlDecode header).elim (.error .malformed) .ok
  let (alg, kid) ← (codec.readRsaHeader bytes).elim (.error .malformed) .ok
  refuse (alg ≠ "RS256".toList) .unsupportedAlg
  let key ← (keys.find kid).elim (.error .unknownKey) .ok
  let sig ← (b64urlDecode sig).elim (.error .malformed) .ok
  refuse (!codec.rsaVerify key.n key.e (encodeUtf8 (signingInput header payload)) sig)
    .invalidSignature
  trusted codec payload now validation

end Codecs

/-- The claims that a token may have when it is used. -/
structure Claims.Valid (claims : Claims) (now : UInt64) (validation : Validation) : Prop where
  exp : validation.validateExp = true → ∀ exp, claims.exp = some exp →
    now.toNat ≤ exp.toNat + validation.leewaySecs.toNat
  nbf : validation.validateNbf = true → ∀ nbf, claims.nbf = some nbf →
    nbf.toNat ≤ now.toNat + validation.leewaySecs.toNat
  iss : ∀ iss, validation.expectedIss = some iss → claims.iss = some iss
  aud : ∀ aud, validation.expectedAud = some aud → claims.aud = some aud

/-- A token with claims that the holder of a key has signed. -/
def Signed (codec : Codec) (key : Bytes) (token : Text) (claims : Claims) : Prop :=
  ∃ header payload : Text, '.' ∉ header ∧ '.' ∉ payload ∧
    token = signingInput header payload ++ '.' :: signature key header payload ∧
    (∃ bytes, b64urlDecode header = some bytes ∧ codec.readHeader bytes = some "HS256".toList) ∧
    ∃ bytes, b64urlDecode payload = some bytes ∧ codec.readClaims bytes = some claims

/-- A token with claims whose signature `ring` takes under a key of its key id. -/
def Jwks.Vouch (codec : Codec) (keys : Jwks) (token : Text) (claims : Claims) : Prop :=
  ∃ header payload sig : Text, '.' ∉ header ∧ '.' ∉ payload ∧ '.' ∉ sig ∧
    token = signingInput header payload ++ '.' :: sig ∧
    (∃ bytes kid key signature, b64urlDecode header = some bytes ∧
      codec.readRsaHeader bytes = some ("RS256".toList, kid) ∧ keys.find kid = some key ∧
      b64urlDecode sig = some signature ∧
      codec.rsaVerify key.n key.e (encodeUtf8 (signingInput header payload)) signature = true) ∧
    ∃ bytes, b64urlDecode payload = some bytes ∧ codec.readClaims bytes = some claims

section Lemmas

variable {codec : Codec} {key : Bytes} {token : Text} {now : UInt64} {validation : Validation}
  {claims : Claims} {keys : Jwks}

theorem elim_eq_ok {α : Type} {e : JwtError} {o : Option α} {a : α} :
    o.elim (.error e) Except.ok = .ok a ↔ o = some a := by
  cases o <;> simp

theorem refuse_eq_ok {c : Bool} {e : JwtError} {u : Unit} : refuse c e = .ok u ↔ c = false := by
  cases c <;> simp [refuse]

theorem any_eq_false {α : Type} {o : Option α} {p : α → Bool} :
    o.any p = false ↔ ∀ a, o = some a → p a = false := by
  cases o <;> simp

theorem parts_eq_ok_iff {header payload sig : Text} :
    parts token = .ok (header, payload, sig) ↔
      token = signingInput header payload ++ '.' :: sig ∧
        '.' ∉ header ∧ '.' ∉ payload ∧ '.' ∉ sig := by
  unfold parts signingInput
  constructor
  · intro h
    split at h
    next hsplit =>
      cases h
      have hjoin : ['.'].intercalate (token.splitOn '.') = token := List.intercalate_splitOn _
      rw [hsplit] at hjoin
      refine ⟨by rw [← hjoin]; simp, ?_, ?_, ?_⟩
      all_goals exact notMem_of_mem_splitOn (show _ ∈ token.splitOn '.' by rw [hsplit]; simp)
    next => cases h
  · rintro ⟨rfl, hheader, hpayload, hsig⟩
    have hsplit : (header ++ '.' :: payload ++ '.' :: sig).splitOn '.' =
        [header, payload, sig] := by
      rw [List.append_assoc, List.cons_append,
        List.splitOn_append_cons_self_of_not_mem hheader,
        List.splitOn_append_cons_self_of_not_mem hpayload, List.splitOn_eq_singleton hsig]
    rw [hsplit]

/-- The saturation of the sums is never seen. -/
theorem validateClaims_eq_ok_iff :
    validateClaims claims now validation = .ok () ↔ claims.Valid now validation := by
  have hsum : ∀ a b c : UInt64,
      a.toNat ≤ (saturatingAdd b c).toNat ↔ a.toNat ≤ b.toNat + c.toNat := by
    intro a b c
    have ha := a.toNat_lt
    rw [toNat_saturatingAdd]
    simp only [UInt64.size]
    omega
  have hafter : ∀ a b : UInt64, decide (a > b) = false ↔ a.toNat ≤ b.toNat := by
    intro a b
    rw [decide_eq_false_iff_not, gt_iff_lt, UInt64.lt_iff_toNat_lt, not_lt]
  unfold validateClaims
  simp only [bind_eq_ok_iff, refuse_eq_ok, exists_const, Bool.and_eq_false_imp, any_eq_false]
  constructor
  · rintro ⟨hexp, hnbf, hiss, haud⟩
    refine ⟨fun hon exp h => ?_, fun hon nbf h => ?_, fun iss h => ?_, fun aud h => ?_⟩
    · rw [← hsum, ← hafter]
      exact hexp hon exp h
    · rw [← hsum, ← hafter]
      exact hnbf hon nbf h
    · simpa using hiss iss h
    · simpa using haud aud h
  · rintro ⟨hexp, hnbf, hiss, haud⟩
    refine ⟨fun hon exp h => ?_, fun hon nbf h => ?_, fun iss h => ?_, fun aud h => ?_⟩
    · rw [hafter, hsum]
      exact hexp hon exp h
    · refine (hafter _ _).mpr ?_
      rw [hsum]
      exact hnbf hon nbf h
    · simpa using hiss iss h
    · simpa using haud aud h

theorem trusted_eq_ok_iff {payload : Text} :
    trusted codec payload now validation = .ok claims ↔
      (∃ bytes, b64urlDecode payload = some bytes ∧ codec.readClaims bytes = some claims) ∧
        claims.Valid now validation := by
  unfold trusted
  simp only [bind_eq_ok_iff, elim_eq_ok]
  constructor
  · rintro ⟨bytes, hbytes, c, hread, ⟨⟩, hvalid, hpure⟩
    cases hpure
    exact ⟨⟨bytes, hbytes, hread⟩, validateClaims_eq_ok_iff.1 hvalid⟩
  · rintro ⟨⟨bytes, hbytes, hread⟩, hvalid⟩
    exact ⟨bytes, hbytes, claims, hread, (), validateClaims_eq_ok_iff.2 hvalid, rfl⟩

theorem signed_of_decodeWith (h : decodeWith codec key token now validation = .ok claims) :
    Signed codec key token claims ∧ claims.Valid now validation := by
  unfold decodeWith at h
  obtain ⟨⟨header, payload, sig⟩, hparts, h⟩ := bind_eq_ok_iff.1 h
  obtain ⟨htoken, hheader, hpayload, -⟩ := parts_eq_ok_iff.1 hparts
  obtain ⟨⟨⟩, hsig, h⟩ := bind_eq_ok_iff.1 h
  obtain ⟨bytes, hbytes, h⟩ := bind_eq_ok_iff.1 h
  obtain ⟨alg, halg, h⟩ := bind_eq_ok_iff.1 h
  obtain ⟨⟨⟩, hrefuse, h⟩ := bind_eq_ok_iff.1 h
  rw [refuse_eq_ok] at hsig hrefuse
  rw [elim_eq_ok] at hbytes halg
  have hsame : sig = signature key header payload := Csrf.verify_iff.mp (by simpa using hsig)
  obtain rfl : alg = "HS256".toList := by simpa [-String.reduceToList] using hrefuse
  obtain ⟨hclaims, hvalid⟩ := trusted_eq_ok_iff.1 h
  exact ⟨⟨header, payload, hheader, hpayload, hsame ▸ htoken, ⟨bytes, hbytes, halg⟩, hclaims⟩,
    hvalid⟩

theorem Signed.decodeWith (h : Signed codec key token claims)
    (hvalid : claims.Valid now validation) :
    decodeWith codec key token now validation = .ok claims := by
  obtain ⟨header, payload, hheader, hpayload, rfl, ⟨bytes, hbytes, halg⟩, hclaims⟩ := h
  have hparts := parts_eq_ok_iff.2 ⟨rfl, hheader, hpayload,
    dot_notMem_b64urlEncode (hmacSha256 key (encodeUtf8 (signingInput header payload)))⟩
  have hverify : Csrf.verify (signature key header payload) (signature key header payload) =
      true := Csrf.verify_iff.mpr rfl
  refine bind_eq_ok_iff.2 ⟨_, hparts, bind_eq_ok_iff.2 ⟨(), refuse_eq_ok.2 ?_,
    bind_eq_ok_iff.2 ⟨bytes, elim_eq_ok.2 hbytes, bind_eq_ok_iff.2 ⟨_, elim_eq_ok.2 halg,
      bind_eq_ok_iff.2 ⟨(), refuse_eq_ok.2 ?_, trusted_eq_ok_iff.2 ⟨hclaims, hvalid⟩⟩⟩⟩⟩⟩
  · show (!Csrf.verify (signature key header payload) (signature key header payload)) = false
    rw [hverify]
    rfl
  · decide

/-- A token is taken exactly if the holder of the key has signed it and its claims are valid. -/
theorem decodeWith_eq_ok_iff : decodeWith codec key token now validation = .ok claims ↔
    Signed codec key token claims ∧ claims.Valid now validation :=
  ⟨signed_of_decodeWith, fun ⟨hsigned, hvalid⟩ => hsigned.decodeWith hvalid⟩

theorem signed_encode (hheader : codec.readHeader (encodeUtf8 headerJson) = some "HS256".toList)
    (hclaims : ∀ bytes, codec.writeClaims claims = some bytes →
      codec.readClaims bytes = some claims)
    (hencode : encode codec key claims = .ok token) : Signed codec key token claims := by
  obtain ⟨bytes, hbytes, hpure⟩ := bind_eq_ok_iff.1 hencode
  rw [elim_eq_ok] at hbytes
  cases hpure
  exact ⟨b64urlEncode (encodeUtf8 headerJson), b64urlEncode bytes, dot_notMem_b64urlEncode _,
    dot_notMem_b64urlEncode _, rfl, ⟨_, b64urlDecode_b64urlEncode _, hheader⟩,
    _, b64urlDecode_b64urlEncode _, hclaims bytes hbytes⟩

/-- A token that was encoded decodes to its claims exactly while they are valid. -/
theorem decodeWith_encode (hheader : codec.readHeader (encodeUtf8 headerJson) = some "HS256".toList)
    (hclaims : ∀ bytes, codec.writeClaims claims = some bytes →
      codec.readClaims bytes = some claims)
    (hencode : encode codec key claims = .ok token) :
    decodeWith codec key token now validation = .ok claims ↔ claims.Valid now validation :=
  ⟨fun h => (signed_of_decodeWith h).2, (signed_encode hheader hclaims hencode).decodeWith⟩

/-- What `serde_json` makes of claims that are all absent, of the header and of an empty key set,
and a `ring` that is not asked. -/
def emptyCodec : Codec where
  writeClaims _ := some (encodeUtf8 "\x7b\x7d".toList)
  readClaims bytes := if bytes = encodeUtf8 "\x7b\x7d".toList then some {} else none
  readHeader bytes := if bytes = encodeUtf8 headerJson then some "HS256".toList else none
  readRsaHeader _ := none
  readKeys bytes := if bytes = encodeUtf8 "\x7b\"keys\":[]\x7d".toList then some [] else none
  rsaVerify _ _ _ _ := false

theorem decodeWith_encode_empty : ∃ token, encode emptyCodec [107] {} = .ok token ∧
    (decodeWith emptyCodec [107] token 100 {} = .ok {} ↔ Claims.Valid {} 100 {}) :=
  ⟨_, rfl, decodeWith_encode (by simp [emptyCodec, -String.reduceToList])
    (by simp [emptyCodec, -String.reduceToList]) rfl⟩

theorem verify_eq_ok_iff : keys.verify codec token now validation = .ok claims ↔
    keys.Vouch codec token claims ∧ claims.Valid now validation := by
  unfold Jwks.verify
  constructor
  · intro h
    obtain ⟨⟨header, payload, sig⟩, hparts, h⟩ := bind_eq_ok_iff.1 h
    obtain ⟨htoken, hheader, hpayload, hsig⟩ := parts_eq_ok_iff.1 hparts
    obtain ⟨bytes, hbytes, h⟩ := bind_eq_ok_iff.1 h
    obtain ⟨⟨alg, kid⟩, halg, h⟩ := bind_eq_ok_iff.1 h
    obtain ⟨⟨⟩, hrefuse, h⟩ := bind_eq_ok_iff.1 h
    obtain ⟨rsaKey, hkey, h⟩ := bind_eq_ok_iff.1 h
    obtain ⟨signature, hsignature, h⟩ := bind_eq_ok_iff.1 h
    obtain ⟨⟨⟩, hverify, htrusted⟩ := bind_eq_ok_iff.1 h
    rw [refuse_eq_ok] at hrefuse hverify
    rw [elim_eq_ok] at hbytes halg hkey hsignature
    obtain rfl : alg = "RS256".toList := by simpa [-String.reduceToList] using hrefuse
    obtain ⟨hclaims, hvalid⟩ := trusted_eq_ok_iff.1 htrusted
    exact ⟨⟨header, payload, sig, hheader, hpayload, hsig, htoken,
      ⟨bytes, kid, rsaKey, signature, hbytes, halg, hkey, hsignature, by simpa using hverify⟩,
      hclaims⟩, hvalid⟩
  · rintro ⟨⟨header, payload, sig, hheader, hpayload, hsig, rfl,
      ⟨bytes, kid, rsaKey, signature, hbytes, halg, hkey, hsignature, hverify⟩, hclaims⟩, hvalid⟩
    refine bind_eq_ok_iff.2 ⟨_, parts_eq_ok_iff.2 ⟨rfl, hheader, hpayload, hsig⟩,
      bind_eq_ok_iff.2 ⟨bytes, elim_eq_ok.2 hbytes, bind_eq_ok_iff.2 ⟨_, elim_eq_ok.2 halg,
        bind_eq_ok_iff.2 ⟨(), refuse_eq_ok.2 ?_, bind_eq_ok_iff.2 ⟨rsaKey, elim_eq_ok.2 hkey,
          bind_eq_ok_iff.2 ⟨signature, elim_eq_ok.2 hsignature, bind_eq_ok_iff.2 ⟨(),
            refuse_eq_ok.2 ?_, trusted_eq_ok_iff.2 ⟨hclaims, hvalid⟩⟩⟩⟩⟩⟩⟩⟩
    · decide
    · simpa using hverify

end Lemmas

end Kernway.Jwt
