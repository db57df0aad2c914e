import Kernway.Jwt
import Kernway.Runs
import Kernway.Utf8Lossy

namespace Kernway.Jwt

variable {ε ι : Type}

/-- A failure of `verify`; `http` is one of the HTTP client. -/
inductive OAuth2Error (ε : Type)
  | http (err : ε)
  | status (code : UInt16) (body : Text)
  | jwt (err : JwtError)

structure Response where
  status : UInt16
  body : Bytes

def Response.isSuccess (r : Response) : Bool := decide (200 ≤ r.status) && decide (r.status < 300)

inductive Stage (ε : Type)
  | reading
  | fetching
  | refetching
  | done (result : Except (OAuth2Error ε) Claims)

/-- A call of `JwksClient::verify`, with the documents that it has been served. -/
structure VerifyCall (ε : Type) where
  token : Text
  now : UInt64
  validation : Validation
  stage : Stage ε := .reading
  served : List Bytes := []

/-- A client that many tasks call, with the documents that the issuer has served to them. -/
structure JwksClient (ι ε : Type) where
  cache : Option Jwks := none
  calls : ι → Option (VerifyCall ε) := fun _ => none
  published : List Bytes := []

section Client

variable (codec : Codec)

/-- What `fetch` makes of a response. -/
def fetched : Except ε Response → Except (OAuth2Error ε) Jwks
  | .error err => .error (.http err)
  | .ok r =>
    if r.isSuccess then (Jwks.fromJson codec r.body).mapError .jwt
    else .error (.status r.status (decodeUtf8Lossy r.body))

/-- The document in a response. -/
def document : Except ε Response → List Bytes
  | .error _ => []
  | .ok r => if r.isSuccess then [r.body] else []

namespace VerifyCall

variable (call : VerifyCall ε)

def check (keys : Jwks) : Except JwtError Claims :=
  keys.verify codec call.token call.now call.validation

/-- The call with keys to verify with: a key id that they do not know has it fetch once more. -/
def judge (keys : Jwks) : Stage ε :=
  match call.check codec keys with
  | .error .unknownKey => .refetching
  | result => .done (result.mapError .jwt)

/-- The call with the keys that it has fetched again. -/
def retry (keys : Jwks) : Stage ε := .done ((call.check codec keys).mapError .jwt)

end VerifyCall

variable [DecidableEq ι]

def JwksClient.set (s : JwksClient ι ε) (i : ι) (call : VerifyCall ε) : JwksClient ι ε :=
  { s with calls := fun j => if j = i then some call else s.calls j }

inductive JwksEvent (ι ε : Type)
  | start (i : ι) (token : Text) (now : UInt64) (validation : Validation)
  | read (i : ι)
  | respond (i : ι) (response : Except ε Response)

/-- A step of a call, up to its next `await`. -/
inductive JwksClient.Step : JwksClient ι ε → JwksEvent ι ε → JwksClient ι ε → Prop
  | start {s : JwksClient ι ε} {i : ι} {token : Text} {now : UInt64} {validation : Validation} :
    Step s (.start i token now validation) (s.set i { token, now, validation })
  | read {s : JwksClient ι ε} {i : ι} {call : VerifyCall ε} :
    s.calls i = some call → call.stage = .reading →
    Step s (.read i)
      (s.set i { call with
        stage :=
          match s.cache with
          | some keys => call.judge codec keys
          | none => .fetching })
  | fail {s : JwksClient ι ε} {i : ι} {call : VerifyCall ε} {response : Except ε Response}
    {err : OAuth2Error ε} :
    s.calls i = some call → call.stage = .fetching ∨ call.stage = .refetching →
    fetched codec response = .error err →
    Step s (.respond i response)
      { s.set i { call with
          stage := .done (.error err)
          served := call.served ++ document response } with
        published := s.published ++ document response }
  | fetch {s : JwksClient ι ε} {i : ι} {call : VerifyCall ε} {response : Except ε Response}
    {keys : Jwks} :
    s.calls i = some call → call.stage = .fetching → fetched codec response = .ok keys →
    Step s (.respond i response)
      { s.set i { call with
          stage := call.judge codec keys
          served := call.served ++ document response } with
        cache := some keys
        published := s.published ++ document response }
  | refetch {s : JwksClient ι ε} {i : ι} {call : VerifyCall ε} {response : Except ε Response}
    {keys : Jwks} :
    s.calls i = some call → call.stage = .refetching → fetched codec response = .ok keys →
    Step s (.respond i response)
      { s.set i { call with
          stage := call.retry codec keys
          served := call.served ++ document response } with
        cache := some keys
        published := s.published ++ document response }

/-- A client from its construction on. -/
def jwksClientSystem (ι ε : Type) [DecidableEq ι] : System (JwksClient ι ε) (JwksEvent ι ε) where
  start s := s = {}
  step := JwksClient.Step codec

end Client

section Runs

variable {codec : Codec}

/-- Keys that a document holds. -/
def From (codec : Codec) (published : List Bytes) (keys : Jwks) : Prop :=
  ∃ body ∈ published, Jwks.fromJson codec body = .ok keys

theorem From.append {published more : List Bytes} {keys : Jwks} (h : From codec published keys) :
    From codec (published ++ more) keys := by
  obtain ⟨body, hbody, hkeys⟩ := h
  exact ⟨body, List.mem_append_left more hbody, hkeys⟩

theorem document_of_fetched {response : Except ε Response} {keys : Jwks}
    (h : fetched codec response = .ok keys) : ∃ body, document response = [body] ∧
      Jwks.fromJson codec body = .ok keys := by
  unfold fetched at h
  unfold document
  split at h
  next => cases h
  next r =>
    split at h
    next hsuccess => exact ⟨r.body, if_pos hsuccess, mapError_ok h⟩
    next => cases h

/-- The document of a fetch that failed has no keys to read. -/
theorem fromJson_ne_ok_of_fetched {response : Except ε Response} {err : OAuth2Error ε}
    (h : fetched codec response = .error err) {body : Bytes} (hbody : body ∈ document response)
    (keys : Jwks) : Jwks.fromJson codec body ≠ .ok keys := by
  intro hkeys
  unfold document at hbody
  unfold fetched at h
  split at hbody
  next => cases hbody
  next r =>
    dsimp only at h
    split at hbody
    next hsuccess =>
      obtain rfl := List.mem_singleton.1 hbody
      rw [if_pos hsuccess, hkeys] at h
      cases h
    next => cases hbody

theorem length_document_le (response : Except ε Response) : (document response).length ≤ 1 := by
  unfold document
  split
  next => exact Nat.zero_le 1
  next =>
    split
    next => exact Nat.le_refl 1
    next => exact Nat.zero_le 1

/-- A key set that cannot be read is malformed, and nothing else. -/
theorem fetched_ne_unknownKey {response : Except ε Response} :
    fetched codec response ≠ .error (.jwt .unknownKey) := by
  unfold fetched Jwks.fromJson
  split
  next => simp
  next r =>
    split
    next =>
      cases codec.readKeys r.body <;>
        simp [Except.mapError, bind, Except.bind, pure, Except.pure]
    next => simp

/-- What a call answers for: claims that keys of the issuer vouch for; no unknown key that the last
document that it was served knows; at most two documents. -/
structure VerifyCall.Sound (codec : Codec) (published : List Bytes) (call : VerifyCall ε) :
    Prop where
  accepted : ∀ claims, call.stage = .done (.ok claims) → ∃ keys, From codec published keys ∧
    keys.Vouch codec call.token claims ∧ claims.Valid call.now call.validation
  answered : ∀ body keys claims, call.served.getLast? = some body →
    Jwks.fromJson codec body = .ok keys → keys.Vouch codec call.token claims →
    claims.Valid call.now call.validation → call.stage = .done (.ok claims)
  unknown : call.stage = .done (.error (.jwt .unknownKey)) → ∃ body keys,
    call.served.getLast? = some body ∧ Jwks.fromJson codec body = .ok keys ∧
      call.check codec keys = .error .unknownKey
  served : call.served.length ≤ 2
  waiting : call.stage = .reading ∨ call.stage = .fetching → call.served = []
  retrying : call.stage = .refetching → call.served.length ≤ 1

theorem VerifyCall.Sound.append {published : List Bytes} {call : VerifyCall ε}
    (h : call.Sound codec published) (more : List Bytes) : call.Sound codec (published ++ more) :=
  { h with
    accepted := fun claims hdone =>
      have ⟨keys, hfrom, hvouch⟩ := h.accepted claims hdone
      ⟨keys, hfrom.append, hvouch⟩ }

section Calls

variable {published : List Bytes} {call : VerifyCall ε} {keys : Jwks}

theorem judge_eq_ok_iff {claims : Claims} :
    call.judge codec keys = .done (.ok claims) ↔ call.check codec keys = .ok claims := by
  unfold VerifyCall.judge
  split
  next h => simp [h]
  next result hne =>
    refine ⟨fun h => ?_, fun h => by rw [h]; rfl⟩
    injection h with h
    exact mapError_ok h

theorem judge_ne_unknownKey :
    call.judge codec keys ≠ .done (.error (.jwt .unknownKey)) := by
  unfold VerifyCall.judge
  split
  next => simp
  next result hne =>
    intro h
    injection h with h
    cases hresult : call.check codec keys with
    | ok claims =>
      rw [hresult] at h
      cases h
    | error err =>
      rw [hresult] at h
      cases h
      exact hne hresult

theorem retry_eq_ok_iff {claims : Claims} :
    call.retry codec keys = .done (.ok claims) ↔ call.check codec keys = .ok claims := by
  unfold VerifyCall.retry
  refine ⟨fun h => ?_, fun h => by rw [h]; rfl⟩
  injection h with h
  exact mapError_ok h

theorem retry_eq_unknownKey (h : call.retry codec keys = .done (.error (.jwt .unknownKey))) :
    call.check codec keys = .error .unknownKey := by
  unfold VerifyCall.retry at h
  injection h with h
  cases hresult : call.check codec keys with
  | ok claims =>
    rw [hresult] at h
    cases h
  | error err =>
    rw [hresult] at h
    cases h
    rfl

theorem check_eq_ok_iff {claims : Claims} : call.check codec keys = .ok claims ↔
    keys.Vouch codec call.token claims ∧ claims.Valid call.now call.validation :=
  verify_eq_ok_iff

theorem sound_waiting (hserved : call.served = [])
    (hstage : call.stage = .reading ∨ call.stage = .fetching) : call.Sound codec published where
  accepted _ h := by
    rcases hstage with hstage | hstage <;> rw [hstage] at h <;> cases h
  answered _ _ _ h := by
    rw [hserved] at h
    cases h
  unknown h := by
    rcases hstage with hstage | hstage <;> rw [hstage] at h <;> cases h
  served := by
    rw [hserved]
    exact Nat.zero_le 2
  waiting _ := hserved
  retrying _ := by
    rw [hserved]
    exact Nat.zero_le 1

/-- The keys are cached ones or those of the first document that the call is served. -/
theorem sound_judge {served : List Bytes} (hfrom : From codec published keys)
    (hserved : ∀ body ∈ served, Jwks.fromJson codec body = .ok keys)
    (hlength : served.length ≤ 1) :
    VerifyCall.Sound codec published
      { call with stage := call.judge codec keys, served := served } where
  accepted claims h := ⟨keys, hfrom, check_eq_ok_iff.1 (judge_eq_ok_iff.1 h)⟩
  answered body keys' claims hbody hkeys' hvouch hvalid := by
    have hkeys := hserved body (List.mem_of_getLast? hbody)
    rw [hkeys'] at hkeys
    cases hkeys
    exact judge_eq_ok_iff.2 (check_eq_ok_iff.2 ⟨hvouch, hvalid⟩)
  unknown h := absurd h judge_ne_unknownKey
  served := Nat.le_succ_of_le hlength
  waiting h := by
    unfold VerifyCall.judge at h
    dsimp only at h
    split at h <;> simp at h
  retrying _ := hlength

theorem sound_retry {body : Bytes} (hbody : body ∈ published)
    (hkeys : Jwks.fromJson codec body = .ok keys) (hlength : call.served.length ≤ 1) :
    VerifyCall.Sound codec published
      { call with stage := call.retry codec keys, served := call.served ++ [body] } where
  accepted claims h := ⟨keys, ⟨body, hbody, hkeys⟩, check_eq_ok_iff.1 (retry_eq_ok_iff.1 h)⟩
  answered body' keys' claims hlast hkeys' hvouch hvalid := by
    rw [List.getLast?_concat] at hlast
    cases hlast
    rw [hkeys] at hkeys'
    cases hkeys'
    exact retry_eq_ok_iff.2 (check_eq_ok_iff.2 ⟨hvouch, hvalid⟩)
  unknown h := ⟨body, keys, List.getLast?_concat, hkeys, retry_eq_unknownKey h⟩
  served := by
    rw [List.length_append, List.length_singleton]
    exact Nat.succ_le_succ hlength
  waiting h := by
    rcases h with h | h <;> cases h
  retrying h := nomatch h

/-- A document that a failing call is served last holds no keys. -/
theorem sound_fail {response : Except ε Response} {err : OAuth2Error ε}
    (h : call.Sound codec published) (hstage : call.stage = .fetching ∨ call.stage = .refetching)
    (herr : fetched codec response = .error err) :
    VerifyCall.Sound codec published
      { call with stage := .done (.error err), served := call.served ++ document response } where
  accepted _ hdone := nomatch hdone
  answered body keys claims hlast hkeys hvouch hvalid := by
    have hdocument : document response = [] := by
      cases hdoc : document response with
      | nil => rfl
      | cons first rest =>
        rw [List.getLast?_append_of_ne_nil _ (by rw [hdoc]; simp)] at hlast
        exact absurd hkeys (fromJson_ne_ok_of_fetched herr (List.mem_of_getLast? hlast) keys)
    rw [hdocument, List.append_nil] at hlast
    have hdone := h.answered body keys claims hlast hkeys hvouch hvalid
    rcases hstage with hstage | hstage <;> rw [hstage] at hdone <;> cases hdone
  unknown hdone := by
    cases hdone
    exact absurd herr fetched_ne_unknownKey
  served := by
    have hlength := length_document_le response
    have hcall : call.served.length ≤ 1 := by
      rcases hstage with hstage | hstage
      · rw [h.waiting (.inr hstage)]
        exact Nat.zero_le 1
      · exact h.retrying hstage
    rw [List.length_append]
    omega
  waiting hwait := by
    rcases hwait with hwait | hwait <;> cases hwait
  retrying hretry := nomatch hretry

end Calls

section System

variable [DecidableEq ι] {s s' : JwksClient ι ε} {e : JwksEvent ι ε}

theorem JwksClient.calls_set (i : ι) (call : VerifyCall ε) : (s.set i call).calls i = some call :=
  if_pos rfl

/-- What the client's cache and its calls keep to. -/
structure JwksClient.Inv (codec : Codec) (s : JwksClient ι ε) : Prop where
  cache : ∀ keys, s.cache = some keys → From codec s.published keys
  calls : ∀ i call, s.calls i = some call → call.Sound codec s.published

theorem JwksClient.Inv.set {i : ι} {call : VerifyCall ε} {cache : Option Jwks} {more : List Bytes}
    (h : s.Inv codec) (hcache : ∀ keys, cache = some keys → From codec (s.published ++ more) keys)
    (hcall : call.Sound codec (s.published ++ more)) :
    JwksClient.Inv codec
      { s.set i call with cache := cache, published := s.published ++ more } where
  cache := hcache
  calls j call' hcall' := by
    unfold JwksClient.set at hcall'
    dsimp only at hcall'
    split at hcall'
    next =>
      cases hcall'
      exact hcall
    next => exact (h.calls j call' hcall').append more

theorem JwksClient.Inv.set_call {i : ι} {call : VerifyCall ε} (h : s.Inv codec)
    (hcall : call.Sound codec s.published) : (s.set i call).Inv codec := by
  rw [← List.append_nil s.published] at hcall
  have hset := h.set (fun keys hkeys => (h.cache keys hkeys).append) hcall (i := i)
  rwa [List.append_nil] at hset

theorem JwksClient.Inv.step (h : s.Inv codec) (hstep : JwksClient.Step codec s e s') :
    s'.Inv codec := by
  cases hstep with
  | start => exact h.set_call (sound_waiting rfl (.inl rfl))
  | @read i call hcall hstage =>
    have hserved := (h.calls i call hcall).waiting (.inl hstage)
    refine h.set_call ?_
    cases hcache : s.cache with
    | none => exact sound_waiting hserved (.inr rfl)
    | some keys =>
      refine sound_judge (h.cache keys hcache) ?_ ?_
      · rw [hserved]
        exact fun _ hbody => absurd hbody List.not_mem_nil
      · rw [hserved]
        exact Nat.zero_le 1
  | fail hcall hstage herr =>
    exact h.set (fun keys hkeys => (h.cache keys hkeys).append)
      (sound_fail ((h.calls _ _ hcall).append _) hstage herr)
  | @fetch i call response keys hcall hstage hkeys =>
    obtain ⟨body, hdocument, hjson⟩ := document_of_fetched hkeys
    have hserved := (h.calls i call hcall).waiting (.inr hstage)
    have hfrom : From codec (s.published ++ document response) keys :=
      ⟨body, by simp [hdocument], hjson⟩
    refine h.set (fun _ hcache => by cases hcache; exact hfrom) (sound_judge hfrom ?_ ?_)
    · rw [hserved, hdocument, List.nil_append]
      exact fun body' hbody' => List.mem_singleton.1 hbody' ▸ hjson
    · rw [hserved, hdocument]
      exact Nat.le_refl 1
  | @refetch i call response keys hcall hstage hkeys =>
    obtain ⟨body, hdocument, hjson⟩ := document_of_fetched hkeys
    have hbody : body ∈ s.published ++ document response := by simp [hdocument]
    refine h.set (fun _ hcache => by cases hcache; exact ⟨body, hbody, hjson⟩) ?_
    have hretrying := (h.calls i call hcall).retrying hstage
    rw [hdocument] at hbody ⊢
    exact sound_retry hbody hjson hretrying

/-- Every call of a client that many tasks share answers by documents that the issuer served. -/
theorem verify_calls_sound (h : (jwksClientSystem codec ι ε).Reachable s) {i : ι}
    {call : VerifyCall ε} (hcall : s.calls i = some call) : call.Sound codec s.published := by
  have hinv : s.Inv codec := by
    refine System.Reach.invariant (fun s hs => ?_) (fun s e s' hs _ hstep => hs.step hstep) h
    obtain rfl : s = {} := hs
    exact ⟨fun _ hcache => (nomatch hcache), fun _ _ hcall => (nomatch hcall)⟩
  exact hinv.calls i call hcall

/-- A token that is not in three parts is malformed under any keys. -/
theorem verify_calls_sound_empty : ∃ s : JwksClient Unit Unit,
    (jwksClientSystem emptyCodec Unit Unit).Reachable s ∧
      ∃ call, s.calls () = some call ∧ call.stage = .done (.error (.jwt .malformed)) ∧
        call.Sound emptyCodec s.published := by
  have hkeys : fetched emptyCodec (.ok ⟨200, encodeUtf8 "\x7b\"keys\":[]\x7d".toList⟩ :
      Except Unit Response) = .ok [] := by
    rfl
  have hstart : (jwksClientSystem emptyCodec Unit Unit).Reachable
      (JwksClient.set {} () { token := ['a'], now := 0, validation := {} }) :=
    System.Reach.step (System.Reach.start rfl) trivial .start
  have hread := System.Reach.step hstart trivial (.read (JwksClient.calls_set _ _) rfl)
  have hfetch := System.Reach.step hread trivial
    (.fetch (JwksClient.calls_set _ _) rfl hkeys)
  exact ⟨_, hfetch, _, rfl, rfl, verify_calls_sound hfetch (i := ()) rfl⟩

end System

end Runs

end Kernway.Jwt
