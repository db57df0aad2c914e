import Kernway.Base64
import Kernway.Decimal
import Kernway.Sha256

namespace Kernway

structure Claims where
  sid : Text
  user : Text
  roles : List Text
  version : UInt64
  exp : UInt64
  deriving DecidableEq

structure TokenCodec where
  key : Bytes

namespace Csrf

/-- `csrf::verify`: no early return on the first byte that differs. -/
def verify (submitted expected : Text) : Bool :=
  let a := encodeUtf8 submitted
  let b := encodeUtf8 expected
  if a.length ≠ b.length then false
  else (List.zipWith (· ^^^ ·) a b).foldl (· ||| ·) 0 == 0

theorem foldl_or_eq_zero (ds : List UInt8) (d : UInt8) :
    ds.foldl (· ||| ·) d = 0 ↔ d = 0 ∧ ∀ x ∈ ds, x = 0 := by
  induction ds generalizing d with
  | nil => simp
  | cons x ds ih => simp [ih, UInt8.or_eq_zero_iff, and_assoc]

theorem verify_iff {submitted expected : Text} :
    verify submitted expected = true ↔ submitted = expected := by
  unfold verify
  dsimp only
  split
  next hlen =>
    refine iff_of_false (by simp) ?_
    rintro rfl
    exact hlen rfl
  next hlen =>
    rw [beq_iff_eq, foldl_or_eq_zero]
    constructor
    · rintro ⟨_, hall⟩
      refine encodeUtf8_injective ?_
      have hlen' : (encodeUtf8 submitted).length = (encodeUtf8 expected).length := by simpa using hlen
      refine List.ext_getElem hlen' fun i hi hi' => ?_
      have hx := hall _ (List.getElem_mem (l := List.zipWith (· ^^^ ·) (encodeUtf8 submitted)
        (encodeUtf8 expected)) (n := i) (by simp; omega))
      rw [List.getElem_zipWith] at hx
      exact UInt8.xor_eq_zero_iff.mp hx
    · rintro rfl
      refine ⟨rfl, fun x hx => ?_⟩
      obtain ⟨i, hi, rfl⟩ := List.mem_iff_getElem.mp hx
      rw [List.getElem_zipWith, UInt8.xor_self]

end Csrf

/-- The field separator. -/
def sep : Char := Char.ofNat 0x1f

def parseU64 (s : Text) : Option UInt64 := (parseUsize s).map UInt64.ofNat

def encodeClaims (c : Claims) : Bytes :=
  let roles := [','].intercalate c.roles
  encodeUtf8 ([sep].intercalate [c.sid, c.user, roles, decimal c.version, decimal c.exp])

def decodeClaims (bytes : Bytes) : Option Claims := do
  let s ← decodeUtf8 bytes
  match s.splitOn sep with
  | [sid, user, rolesText, versionText, expText] =>
    let version ← parseU64 versionText
    let exp ← parseU64 expText
    let roles := if rolesText = [] then [] else rolesText.splitOn ','
    some { sid, user, roles, version, exp }
  | _ => none

namespace TokenCodec

/-- The signature that a payload is to carry. -/
def signature (codec : TokenCodec) (payload : Text) : Text :=
  b64urlEncode (hmacSha256 codec.key (encodeUtf8 payload))

def sign (codec : TokenCodec) (claims : Claims) : Text :=
  let payload := b64urlEncode (encodeClaims claims)
  payload ++ '.' :: codec.signature payload

def verify (codec : TokenCodec) (token : Text) : Option Claims := do
  let (payload, sig) ← cutAt '.' token
  if !Csrf.verify sig (codec.signature payload) then none
  else do
    let bytes ← b64urlDecode payload
    decodeClaims bytes

end TokenCodec

theorem parseU64_decimal (n : UInt64) : parseU64 (decimal n) = some n := by
  have hparse : parseUsize (decimal n) = some n.toNat := parseUsize_toDigits n.toNat_lt
  rw [parseU64, hparse, Option.map_some, UInt64.ofNat_toNat]

theorem sep_notMem_decimal (n : UInt64) : sep ∉ decimal n := notMem_toDigits (by decide) n.toNat

namespace Claims

/-- No text of the claims has a separator in it, and they do not name the empty role alone. -/
structure Delimited (c : Claims) : Prop where
  sid : sep ∉ c.sid
  user : sep ∉ c.user
  roles : ∀ r ∈ c.roles, sep ∉ r ∧ ',' ∉ r
  notEmpty : c.roles ≠ [[]]

end Claims

/-- The roles that are read back from the text of a list of roles. -/
theorem roles_round_trip {roles : List Text} :
    (if [','].intercalate roles = [] then [] else ([','].intercalate roles).splitOn ',') = roles ↔
      (∀ r ∈ roles, ',' ∉ r) ∧ roles ≠ [[]] := by
  constructor
  · intro h
    split at h
    next => simp [← h]
    next hne =>
      refine ⟨fun r hr => ?_, ?_⟩
      · rw [← h] at hr
        exact notMem_of_mem_splitOn hr
      · rintro rfl
        simp at hne
  · rintro ⟨hroles, hne⟩
    split
    next hnil =>
      cases roles with
      | nil => rfl
      | cons r roles =>
        cases roles with
        | nil => simp at hnil; simp [hnil] at hne
        | cons r' roles => simp at hnil
    next hnil =>
      refine List.splitOn_intercalate ',' hroles ?_
      rintro rfl
      simp at hnil

/-- Claims are read back as they were exactly where their texts keep clear of the separators. -/
theorem decodeClaims_encodeClaims_iff {c : Claims} :
    decodeClaims (encodeClaims c) = some c ↔ c.Delimited := by
  obtain ⟨sid, user, roles, version, exp⟩ := c
  constructor
  · intro h
    simp only [decodeClaims, encodeClaims, decodeUtf8_encodeUtf8, Option.bind_eq_bind,
      Option.bind_some] at h
    split at h
    next s u rolesText versionText expText hsplit =>
      simp only [Option.bind_eq_some_iff, Option.some.injEq, Claims.mk.injEq] at h
      obtain ⟨v, hv, e, he, rfl, rfl, hr, -, -⟩ := h
      have hclear : ∀ l ∈ [s, u, rolesText, versionText, expText], sep ∉ l := by
        intro l hl
        rw [← hsplit] at hl
        exact notMem_of_mem_splitOn hl
      have hversion := sep_notMem_decimal version
      have hexp := sep_notMem_decimal exp
      have hjoin := congrArg ([sep].intercalate) hsplit
      rw [List.intercalate_splitOn] at hjoin
      simp only [List.mem_cons, List.not_mem_nil, or_false, forall_eq_or_imp, forall_eq,
        List.intercalate_cons_cons, List.intercalate_singleton, List.append_assoc,
        List.append_cancel_left_eq] at hclear hjoin
      obtain ⟨hs, hu, hr', hv', he'⟩ := hclear
      have hcount := congrArg (List.count sep) hjoin
      simp only [List.count_append, List.count_eq_zero.mpr hr', List.count_eq_zero.mpr hv',
        List.count_eq_zero.mpr he', List.count_eq_zero.mpr hversion,
        List.count_eq_zero.mpr hexp] at hcount
      have hnone : sep ∉ [','].intercalate roles := List.count_eq_zero.mp (by omega)
      have htext : [','].intercalate roles = rolesText := by
        have hsplit' := congrArg (List.splitOn sep) hjoin
        simp only [List.singleton_append] at hsplit'
        rw [List.splitOn_append_cons_self_of_not_mem hnone,
          List.splitOn_append_cons_self_of_not_mem hr'] at hsplit'
        exact (List.cons.inj hsplit').1
      rw [← htext] at hr
      obtain ⟨hcomma, hne⟩ := roles_round_trip.1 hr
      refine ⟨hs, hu, fun r hmem => ⟨fun hsep => hnone ?_, hcomma r hmem⟩, hne⟩
      exact (mem_intercalate (by decide)).mpr ⟨r, hmem, hsep⟩
    next => simp at h
  · rintro ⟨hsid, huser, hall, hne⟩
    have hsep : sep ∉ [','].intercalate roles := by
      rw [mem_intercalate (by decide)]
      rintro ⟨r, hr, hmem⟩
      exact (hall r hr).1 hmem
    have hsplit : ([sep].intercalate [sid, user, [','].intercalate roles, decimal version,
        decimal exp]).splitOn sep =
        [sid, user, [','].intercalate roles, decimal version, decimal exp] := by
      refine List.splitOn_intercalate sep (fun l hl => ?_) (by simp)
      simp only [List.mem_cons, List.not_mem_nil, or_false] at hl
      rcases hl with rfl | rfl | rfl | rfl | rfl
      · exact hsid
      · exact huser
      · exact hsep
      · exact sep_notMem_decimal version
      · exact sep_notMem_decimal exp
    have hback := roles_round_trip.2 ⟨fun r hr => (hall r hr).2, hne⟩
    simp only [decodeClaims, encodeClaims, decodeUtf8_encodeUtf8, Option.bind_eq_bind,
      Option.bind_some, hsplit, parseU64_decimal, hback]

namespace TokenCodec

/-- A token that carries the signature of its payload. -/
def Signed (codec : TokenCodec) (token : Text) : Prop :=
  ∃ payload, '.' ∉ payload ∧ token = payload ++ '.' :: codec.signature payload

theorem signed_of_verify {codec : TokenCodec} {token : Text} {c : Claims}
    (h : codec.verify token = some c) : codec.Signed token := by
  obtain ⟨⟨payload, sig⟩, hcut, hrest⟩ := Option.bind_eq_some_iff.mp h
  obtain ⟨rfl, hdot⟩ := cutAt_eq_some_iff.mp hcut
  dsimp only at hrest
  split at hrest
  next => simp at hrest
  next hv =>
    have hsig : sig = codec.signature payload := Csrf.verify_iff.mp (by simpa using hv)
    exact ⟨payload, hdot, by rw [hsig]⟩

theorem verify_sign (codec : TokenCodec) (c : Claims) :
    codec.verify (codec.sign c) = decodeClaims (encodeClaims c) := by
  have hcut : cutAt '.' (codec.sign c) = some (b64urlEncode (encodeClaims c),
      codec.signature (b64urlEncode (encodeClaims c))) :=
    cutAt_eq_some_iff.mpr ⟨rfl, dot_notMem_b64urlEncode _⟩
  have hsig := Csrf.verify_iff.mpr (rfl : codec.signature (b64urlEncode (encodeClaims c)) = _)
  simp only [verify, hcut, Option.bind_eq_bind, Option.bind_some, hsig, Bool.not_true,
    Bool.false_eq_true, if_false, b64urlDecode_b64urlEncode]

/-- A signed token verifies to the claims it was made of exactly where they are delimited. -/
theorem verify_sign_iff (codec : TokenCodec) (c : Claims) :
    codec.verify (codec.sign c) = some c ↔ c.Delimited := by
  rw [verify_sign, decodeClaims_encodeClaims_iff]

/-- One role with a comma in it is read back as two. -/
theorem not_verify_sign : ¬ ∀ (codec : TokenCodec) (c : Claims),
    codec.verify (codec.sign c) = some c := by
  intro h
  have hv := h ⟨[]⟩ ⟨['s'], ['u'], ["USER,ADMIN".toList], 0, 0⟩
  rw [verify_sign] at hv
  have hroles := (decodeClaims_encodeClaims_iff.mp hv).roles _ (List.mem_singleton.mpr rfl)
  exact hroles.2 (by decide)

end TokenCodec

end Kernway
