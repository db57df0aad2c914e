import Kernway.ClientUrl
import Kernway.Fields
import Kernway.Results

namespace Kernway.HttpClient

inductive Method
  | get
  | post
  | put
  | patch
  | delete
  | head
  deriving DecidableEq

structure Request where
  method : Method
  url : Url
  headers : List (Text × Text)
  body : Bytes

/-- The head of a response: its status and the names and values that its spans cut out of it. -/
structure Head where
  status : UInt16
  fields : List (Bytes × Bytes)

/-- `header_bytes`: the value of the first header of this name. -/
def Head.headerBytes (head : Head) (name : Text) : Option Bytes :=
  (head.fields.find? fun field =>
    field.1.map asciiLowerByte == (encodeUtf8 name).map asciiLowerByte).map Prod.snd

/-- `Response::header`. -/
def Head.header (head : Head) (name : Text) : Option Text :=
  (head.headerBytes name).map fun value => (decodeUtf8 value).getD []

def Request.has (req : Request) (name : Text) : Bool :=
  req.headers.any fun field => eqIgnoreAsciiCase field.1 name

def authorization : Text := "authorization".toList

def cookie : Text := "cookie".toList

/-- Whether a redirect to another URL passes a header on. -/
def carries (sameOrigin droppedBody : Bool) (name : Text) : Bool :=
  let n := toAsciiLowercase name
  !(!sameOrigin && (n == authorization || n == cookie)) &&
    !(droppedBody && (n == "content-type".toList || n == "content-length".toList))

def sameOrigin (url base : Url) : Bool :=
  url.scheme == base.scheme && eqIgnoreAsciiCase url.host base.host && url.port == base.port

/-- The request that follows a redirect to `url`. -/
def followUp (req : Request) (status : UInt16) (url : Url) : Request :=
  let (method, body) :=
    if status = 307 ∨ status = 308 then (req.method, req.body)
    else if req.method = .head then (.head, [])
    else (.get, [])
  let droppedBody := body.isEmpty && !req.body.isEmpty
  let headers := req.headers.filter fun field =>
    carries (sameOrigin url req.url) droppedBody field.1
  ⟨method, url, headers, body⟩

def redirectTarget (req : Request) (head : Head) : Except UrlError (Option Request) :=
  if head.status ∈ [301, 302, 303, 307, 308] then
    match head.header "location".toList with
    | some location =>
      (resolveLocation req.url location).map fun url => some (followUp req head.status url)
    | none => .ok none
  else .ok none

/-- `send_streaming` asks for an unencoded body. -/
def Request.forStreaming (req : Request) : Request :=
  if req.has "accept-encoding".toList then req
  else { req with headers := req.headers ++ [("accept-encoding".toList, "identity".toList)] }

/-- The requests that the loop of `send_inner` and of `send_streaming` sends when it is given these
responses one after the other. -/
def requestsSent (maxRedirects : Nat) (req : Request) : List Head → List Request
  | [] => [req]
  | head :: heads =>
    req :: match maxRedirects with
      | 0 => []
      | redirects + 1 =>
        match redirectTarget req head with
        | .ok (some next) => requestsSent redirects next heads
        | _ => []

def hostHeader (url : Url) : Text :=
  if url.port = (if url.isTls then 443 else 80) then url.host
  else url.host ++ ':' :: Nat.toDigits 10 url.port.toNat

def connectionToken (keepAlive : Bool) : Text :=
  if keepAlive then "keep-alive".toList else "close".toList

/-- The header lines that `encode_request` writes, with the cookies of the jar. -/
def Request.encodedHeaders (req : Request) (keepAlive : Bool) (jar : Option Text) :
    List (Text × Text) :=
  (if req.has "host".toList then [] else [("Host".toList, hostHeader req.url)]) ++
  (if req.has "user-agent".toList then []
    else [("User-Agent".toList, "kernway-http-client/0.1".toList)]) ++
  (if req.has "accept-encoding".toList then []
    else [("Accept-Encoding".toList, "gzip, deflate, br".toList)]) ++
  req.headers ++
  (if req.body.isEmpty || req.has "content-length".toList then []
    else [("Content-Length".toList, Nat.toDigits 10 req.body.length)]) ++
  (if req.has "connection".toList then []
    else [("Connection".toList, connectionToken keepAlive)]) ++
  match jar with
  | some value =>
    if value.isEmpty || req.has cookie then [] else [("Cookie".toList, value)]
  | none => []

def IsCredential (name : Text) : Prop :=
  toAsciiLowercase name = authorization ∨ toAsciiLowercase name = cookie

/-- The origin has not changed, or no credentials are left. -/
def Guarded (origin : Text × Text × UInt16) (req : Request) : Prop :=
  req.url.origin = origin ∨ ∀ field ∈ req.headers, ¬ IsCredential field.1

theorem not_credential_of_carries {droppedBody : Bool} {name : Text}
    (h : carries false droppedBody name = true) : ¬ IsCredential name := by
  rintro (hname | hname)
  · simp [carries, hname] at h
  · simp [carries, hname] at h

theorem sameOrigin_iff {url base : Url} : sameOrigin url base = true ↔ url.origin = base.origin := by
  simp only [sameOrigin, eqIgnoreAsciiCase, Bool.and_eq_true, beq_iff_eq, Url.origin,
    Prod.mk.injEq, and_assoc]

theorem redirectTarget_eq_some {req next : Request} {head : Head}
    (h : redirectTarget req head = .ok (some next)) : ∃ url, next = followUp req head.status url := by
  unfold redirectTarget at h
  split at h
  next =>
    split at h
    next location hlocation =>
      obtain ⟨url, hurl, hnext⟩ := map_eq_ok_iff.mp h
      exact ⟨url, (Option.some.inj hnext).symm⟩
    next => cases h
  next => cases h

/-- The next request of a chain has no header that the last one did not have, and no credentials
when its origin is another. -/
theorem Guarded.followUp {origin : Text × Text × UInt16} {req : Request} (h : Guarded origin req)
    (status : UInt16) (url : Url) : Guarded origin (followUp req status url) := by
  have hurl : (HttpClient.followUp req status url).url = url := rfl
  have hfields : ∀ field ∈ (HttpClient.followUp req status url).headers, field ∈ req.headers ∧
      (sameOrigin url req.url = false → ¬ IsCredential field.1) := by
    intro field hfield
    obtain ⟨hmem, hcarries⟩ := List.mem_filter.mp hfield
    refine ⟨hmem, fun hother => ?_⟩
    rw [hother] at hcarries
    exact not_credential_of_carries hcarries
  cases hsame : sameOrigin url req.url with
  | false => exact .inr fun field hfield => (hfields field hfield).2 hsame
  | true =>
    have horigin : url.origin = req.url.origin := sameOrigin_iff.1 hsame
    rcases h with hreq | hnone
    · exact .inl (by rw [hurl, horigin, hreq])
    · exact .inr fun field hfield => hnone field (hfields field hfield).1

theorem guarded_of_sent {origin : Text × Text × UInt16} {maxRedirects : Nat} {req sent : Request}
    {heads : List Head} (h : Guarded origin req) (hsent : sent ∈ requestsSent maxRedirects req heads) :
    Guarded origin sent := by
  induction heads generalizing maxRedirects req with
  | nil =>
    obtain rfl : sent = req := by
      cases maxRedirects with
      | zero => exact List.mem_singleton.mp hsent
      | succ redirects => exact List.mem_singleton.mp hsent
    exact h
  | cons head heads ih =>
    cases maxRedirects with
    | zero =>
      obtain rfl : sent = req := List.mem_singleton.mp hsent
      exact h
    | succ redirects =>
      rcases List.mem_cons.mp hsent with rfl | hlater
      · exact h
      · cases htarget : redirectTarget req head with
        | error e =>
          rw [htarget] at hlater
          cases hlater
        | ok target =>
          cases target with
          | none =>
            rw [htarget] at hlater
            cases hlater
          | some next =>
            rw [htarget] at hlater
            obtain ⟨url, rfl⟩ := redirectTarget_eq_some htarget
            exact ih (h.followUp head.status url) hlater

theorem forStreaming_url (req : Request) : req.forStreaming.url = req.url := by
  unfold Request.forStreaming
  split
  next => rfl
  next => rfl

theorem eq_of_mem_unless {b : Bool} {field added : Text × Text}
    (h : field ∈ if b then [] else [added]) : field = added := by
  cases b with
  | false => exact List.mem_singleton.mp h
  | true => cases h

/-- Of the headers that are added to the caller's, only the jar's cookies are credentials. -/
theorem credential_of_encoded {req : Request} {keepAlive : Bool} {jar : Option Text}
    {field : Text × Text} (hfield : field ∈ req.encodedHeaders keepAlive jar)
    (hcredential : IsCredential field.1) :
    field ∈ req.headers ∨ field.1 = "Cookie".toList ∧ jar = some field.2 := by
  have hother : ∀ {b : Bool} {name value : Text}, ¬ IsCredential name →
      field ∉ if b then [] else [(name, value)] := by
    intro b name value hname hmem
    obtain rfl := eq_of_mem_unless hmem
    exact hname hcredential
  simp only [Request.encodedHeaders, List.mem_append] at hfield
  rcases hfield with (((((hhost | hagent) | hencoding) | hcaller) | hlength) | hconnection) | hjar
  · exact absurd hhost (hother (by unfold IsCredential; decide))
  · exact absurd hagent (hother (by unfold IsCredential; decide))
  · exact absurd hencoding (hother (by unfold IsCredential; decide))
  · exact .inl hcaller
  · exact absurd hlength (hother (by unfold IsCredential; decide))
  · exact absurd hconnection (hother (by unfold IsCredential; decide))
  · cases jar with
    | none => cases hjar
    | some value =>
      obtain rfl := eq_of_mem_unless hjar
      exact .inr ⟨rfl, rfl⟩

/-- A request of a redirect chain that goes to another origin than the first one has no credentials
but the cookies that the jar keeps for its own URL. -/
theorem credentials_stay {req sent : Request} {maxRedirects : Nat} {heads : List Head}
    {streaming : Bool}
    (hsent : sent ∈ requestsSent maxRedirects (if streaming then req.forStreaming else req) heads)
    (hother : sent.url.origin ≠ req.url.origin) :
    ∀ keepAlive jar, ∀ field ∈ sent.encodedHeaders keepAlive jar, IsCredential field.1 →
      field.1 = "Cookie".toList ∧ jar = some field.2 := by
  intro keepAlive jar field hfield hcredential
  have hstart : Guarded req.url.origin (if streaming then req.forStreaming else req) := by
    cases streaming with
    | false => exact .inl rfl
    | true => exact .inl (congrArg Url.origin (forStreaming_url req))
  rcases guarded_of_sent hstart hsent with hsame | hnone
  · exact absurd hsame hother
  · rcases credential_of_encoded hfield hcredential with hcaller | hjar
    · exact absurd hcredential (hnone field hcaller)
    · exact hjar

def shopRequest : Request where
  method := .get
  url := ⟨https, "shop.example".toList, 443, ['/']⟩
  headers := [("Authorization".toList, "Bearer t".toList), ("Accept".toList, "*/*".toList)]
  body := []

def elsewhere : Head where
  status := 302
  fields := [(encodeUtf8 "Location".toList, encodeUtf8 "https://ads.example/".toList)]

def adsRequest : Request where
  method := .get
  url := ⟨https, "ads.example".toList, 443, ['/']⟩
  headers := [("Accept".toList, "*/*".toList)]
  body := []

theorem adsRequest_sent : requestsSent 10 shopRequest [elsewhere] = [shopRequest, adsRequest] := by
  rfl

theorem credentials_stay_shop :
    adsRequest ∈ requestsSent 10 (if false then shopRequest.forStreaming else shopRequest)
      [elsewhere] ∧
    ∀ keepAlive jar, ∀ field ∈ adsRequest.encodedHeaders keepAlive jar, IsCredential field.1 →
      field.1 = "Cookie".toList ∧ jar = some field.2 := by
  have hsent : adsRequest ∈ requestsSent 10
      (if false then shopRequest.forStreaming else shopRequest) [elsewhere] :=
    adsRequest_sent ▸ List.mem_cons_of_mem _ (List.mem_cons_self ..)
  exact ⟨hsent, credentials_stay hsent (by decide)⟩

end Kernway.HttpClient
