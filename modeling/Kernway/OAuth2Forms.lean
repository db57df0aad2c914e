import Kernway.Base64
import Kernway.Sha256
import Kernway.UrlDecoding

namespace Kernway

/-- `form_body`. -/
def formBody (pairs : List (Text × Text)) : Bytes :=
  encodeUtf8 (['&'].intercalate (pairs.map fun p => percentEncode p.1 ++ '=' :: percentEncode p.2))

/-- The loop of `encode_form`, from the first pair or a later one on. -/
def encodeFormFrom (first : Bool) : List (Text × Text) → Text
  | [] => []
  | p :: ps =>
    (if first then [] else ['&']) ++ percentEncode p.1 ++ '=' :: percentEncode p.2 ++
      encodeFormFrom false ps

def encodeForm (form : List (Text × Text)) : Bytes := encodeUtf8 (encodeFormFrom true form)

/-- `form_field`, with the panic of `percent_decode`. -/
def formField (body : Bytes) (name : Text) : Except SliceFault Text :=
  let value := ((decodeUtf8Lossy body).splitOn '&').findSome? fun pair => do
    let (k, v) ← cutAt '=' pair
    if k = name then some v else none
  match value with
  | some v => CoreUrl.percentDecode v
  | none => .ok []

section Forms

theorem piece_eq (p : Text × Text) :
    percentEncode p.1 ++ '=' :: percentEncode p.2 = Kernleaf.piece p := rfl

theorem percentDecode_percentEncode (s : Text) :
    CoreUrl.percentDecode (percentEncode s) = .ok s := by
  have hback : Form.decode (percentEncode s) = s := Kernleaf.decode_urlEncode s
  rw [(percentDecode_eq_iff _).2 (readsRight_percentEncode s), hback]

theorem encodeFormFrom_cons (p : Text × Text) (ps : List (Text × Text)) :
    encodeFormFrom true (p :: ps) = ['&'].intercalate ((p :: ps).map Kernleaf.piece) := by
  induction ps generalizing p with
  | nil =>
    have hsingle : ['&'].intercalate ([p].map Kernleaf.piece) = Kernleaf.piece p := by simp
    rw [hsingle, ← piece_eq, encodeFormFrom, encodeFormFrom, List.append_nil]
    rfl
  | cons next ps ih =>
    have hnext := ih next
    have hcons : ['&'].intercalate ((p :: next :: ps).map Kernleaf.piece) =
        Kernleaf.piece p ++ '&' :: ['&'].intercalate ((next :: ps).map Kernleaf.piece) := by
      simp [List.intercalate]
    rw [hcons, ← hnext]
    simp only [encodeFormFrom, if_true, List.nil_append, ← piece_eq, List.append_assoc,
      List.cons_append]
    rfl

theorem encodeForm_eq (form : List (Text × Text)) : encodeForm form = formBody form := by
  cases form with
  | nil => rfl
  | cons p ps =>
    unfold encodeForm formBody
    rw [encodeFormFrom_cons]
    rfl

/-- The first piece under a name. -/
theorem findSome_pieces (pairs : List (Text × Text)) (name : Text) :
    ((pairs.map Kernleaf.piece).findSome? fun pair => do
        let (k, v) ← cutAt '=' pair
        if k = name then some v else none) =
      (pairs.find? fun p => percentEncode p.1 = name).map fun p => percentEncode p.2 := by
  induction pairs with
  | nil => rfl
  | cons p ps ih =>
    have hname : '=' ∉ percentEncode p.1 := fun h => (Kernleaf.plain_of_mem_urlEncode h).2.2.2.1 rfl
    have hcut : cutAt '=' (Kernleaf.piece p) = some (percentEncode p.1, percentEncode p.2) :=
      cutAt_eq_some_iff.2 ⟨rfl, hname⟩
    rw [List.map_cons, List.findSome?_cons, hcut, ih]
    by_cases h : percentEncode p.1 = name
    · rw [List.find?_cons_of_pos (by simpa using h)]
      simp [h]
    · rw [List.find?_cons_of_neg (by simpa using h)]
      simp [h]

theorem decodeUtf8Lossy_formBody (pairs : List (Text × Text)) :
    decodeUtf8Lossy (formBody pairs) = ['&'].intercalate (pairs.map Kernleaf.piece) :=
  decodeUtf8Lossy_encodeUtf8 _

theorem formField_formBody (pairs : List (Text × Text)) (name : Text) :
    formField (formBody pairs) name =
      .ok (((pairs.find? fun p => percentEncode p.1 = name).map Prod.snd).getD []) := by
  have hpieces : ((['&'].intercalate (pairs.map Kernleaf.piece)).splitOn '&').findSome? (fun pair =>
      do
        let (k, v) ← cutAt '=' pair
        if k = name then some v else none) =
      (pairs.find? fun p => percentEncode p.1 = name).map fun p => percentEncode p.2 := by
    cases pairs with
    | nil => rfl
    | cons p ps =>
      rw [List.splitOn_intercalate, findSome_pieces]
      · intro piece hpiece
        obtain ⟨param, _, rfl⟩ := List.mem_map.1 hpiece
        exact Kernleaf.amp_notMem_piece param
      · simp
  unfold formField
  rw [decodeUtf8Lossy_formBody]
  dsimp only
  rw [hpieces]
  cases pairs.find? fun p => percentEncode p.1 = name with
  | none => rfl
  | some p => exact percentDecode_percentEncode p.2

theorem pairs_formBody (pairs : List (Text × Text)) :
    Form.pairs (decodeUtf8Lossy (formBody pairs)) = pairs := by
  rw [decodeUtf8Lossy_formBody, Kernleaf.pairs_pieces]

/-- What either function writes, a parser of forms reads back, and `form_field` finds the first
value whose name is written as the one it looks for. -/
theorem form_read_back (pairs : List (Text × Text)) :
    encodeForm pairs = formBody pairs ∧ Form.pairs (decodeUtf8Lossy (formBody pairs)) = pairs ∧
      ∀ name, formField (formBody pairs) name =
        .ok (((pairs.find? fun p => percentEncode p.1 = name).map Prod.snd).getD []) :=
  ⟨encodeForm_eq pairs, pairs_formBody pairs, formField_formBody pairs⟩

end Forms

structure OAuth2Client where
  clientId : Text
  clientSecret : Text
  authUrl : Text
  redirectUri : Text
  scopes : List Text

/-- The redirect, and what is kept for the callback. -/
structure OAuth2Authorization where
  url : Text
  state : Text
  pkceVerifier : Text

/-- The S256 challenge of a verifier. -/
def pkceChallenge (verifier : Text) : Text := b64urlEncode (sha256 (encodeUtf8 verifier))

namespace OAuth2Client

variable (client : OAuth2Client)

def params (state challenge : Text) : List (Text × Text) :=
  [("response_type".toList, "code".toList), ("client_id".toList, client.clientId),
    ("redirect_uri".toList, client.redirectUri), ("scope".toList, [' '].intercalate client.scopes),
    ("state".toList, state), ("code_challenge".toList, challenge),
    ("code_challenge_method".toList, "S256".toList)]

/-- `authorize_url`, with the bytes that the system's random source returned. -/
def authorizeUrl (verifier state : Bytes) : OAuth2Authorization :=
  let verifier := b64urlEncode verifier
  let state := b64urlEncode state
  let query := ['&'].intercalate ((client.params state (pkceChallenge verifier)).map fun p =>
    p.1 ++ '=' :: percentEncode p.2)
  let sep := if '?' ∈ client.authUrl then '&' else '?'
  { url := client.authUrl ++ sep :: query, state, pkceVerifier := verifier }

/-- The fields of the body of `exchange_code`. -/
def exchangeFields (code verifier : Text) : List (Text × Text) :=
  [("grant_type".toList, "authorization_code".toList), ("code".toList, code),
    ("redirect_uri".toList, client.redirectUri), ("client_id".toList, client.clientId),
    ("client_secret".toList, client.clientSecret), ("code_verifier".toList, verifier)]

end OAuth2Client

/-- The parameters that a provider reads in a URL's query. -/
def queryParams (url : Text) : List (Text × Text) :=
  ((cutAt '?' url).map fun p => Form.pairs p.2).getD []

/-- A query is set behind the one that a URL has. -/
theorem queryParams_append (url query : Text) :
    queryParams (url ++ (if '?' ∈ url then '&' else '?') :: query) =
      queryParams url ++ Form.pairs query := by
  unfold queryParams
  by_cases hmark : '?' ∈ url
  · cases hcut : cutAt '?' url with
    | none => exact absurd hmark (cutAt_eq_none_iff.1 hcut)
    | some p =>
      obtain ⟨rfl, hbefore⟩ := cutAt_eq_some_iff.1 hcut
      rw [if_pos hmark, List.append_assoc, List.cons_append, cutAt_eq_some_iff.2 ⟨rfl, hbefore⟩]
      exact Form.pairs_append p.2 query
  · rw [if_neg hmark, cutAt_eq_some_iff.2 ⟨rfl, hmark⟩, cutAt_eq_none_iff.2 hmark]
    rfl

/-- The names of the parameters are written as they are. -/
theorem pairs_params (client : OAuth2Client) (state challenge : Text) :
    Form.pairs (['&'].intercalate ((client.params state challenge).map fun p =>
      p.1 ++ '=' :: percentEncode p.2)) = client.params state challenge := by
  refine Eq.trans ?_ (Kernleaf.pairs_pieces _)
  refine congrArg (fun pieces => Form.pairs (['&'].intercalate pieces)) ?_
  refine List.map_congr_left fun p hp => ?_
  have hname : percentEncode p.1 = p.1 := by
    simp only [OAuth2Client.params, List.mem_cons, List.not_mem_nil, or_false] at hp
    rcases hp with rfl | rfl | rfl | rfl | rfl | rfl | rfl <;> dsimp only <;> decide
  rw [← piece_eq, hname]

/-- A provider reads the parameters of a redirect behind those of its own URL, and the fields of the
exchange, whose verifier is the one of the challenge. -/
theorem authorization_read_back (client : OAuth2Client) (verifier state : Bytes) (code : Text) :
    let a := client.authorizeUrl verifier state
    queryParams a.url =
        queryParams client.authUrl ++ client.params a.state (pkceChallenge a.pkceVerifier) ∧
      Form.pairs (decodeUtf8Lossy (formBody (client.exchangeFields code a.pkceVerifier))) =
        client.exchangeFields code a.pkceVerifier := by
  intro a
  have hquery := pairs_params client a.state (pkceChallenge a.pkceVerifier)
  have hurl := queryParams_append client.authUrl (['&'].intercalate
    ((client.params a.state (pkceChallenge a.pkceVerifier)).map fun p =>
      p.1 ++ '=' :: percentEncode p.2))
  rw [hquery] at hurl
  exact ⟨hurl, pairs_formBody _⟩

end Kernway
