import Kernway.ClientUrl

namespace Kernway.HttpClient

structure Cookie where
  name : Text
  value : Text
  domain : Text
  hostOnly : Bool
  path : Text
  expires : Option UInt64
  secure : Bool
  deriving DecidableEq

def defaultPath (pathAndQuery : Text) : Text :=
  match cutAtLast '/' ((pathAndQuery.splitOn '?').headD []) with
  | some (dir, _) => if dir = [] then ['/'] else dir
  | none => ['/']

def domainMatch (domain : Text) (hostOnly : Bool) (host : Text) : Bool :=
  if hostOnly then host == domain
  else host == domain || ('.' :: domain).isSuffixOf host

def pathMatch (cookiePath requestPath : Text) : Bool :=
  let path := (requestPath.splitOn '?').headD []
  path == cookiePath ||
    cookiePath.isPrefixOf path &&
      (cookiePath.getLast? == some '/' || path[cookiePath.length]? == some '/')

/-- The key and the value of an attribute. -/
def splitAttribute (attr : Text) : Text × Text :=
  match cutAt '=' (trim attr) with
  | some (key, val) => (toAsciiLowercase (trim key), trim val)
  | none => (toAsciiLowercase (trim attr), [])

/-- A `Domain` value without its leading dots. -/
def bareDomain (val : Text) : Text := toAsciiLowercase (val.dropWhile (· = '.'))

def maxAge (now : UInt64) (secs : Int64) : UInt64 :=
  if secs ≤ 0 then 0
  else if now.toNat + secs.toInt.toNat < 2 ^ 64 then .ofNat (now.toNat + secs.toInt.toNat)
  else .ofNat (2 ^ 64 - 1)

def Cookie.withAttribute (now : UInt64) (cookie : Cookie) (attr : Text) : Cookie :=
  let (key, val) := splitAttribute attr
  if key = "domain".toList then
    if bareDomain val = [] then cookie
    else { cookie with domain := bareDomain val, hostOnly := false }
  else if key = "path".toList then
    if val.head? = some '/' then { cookie with path := val } else cookie
  else if key = "max-age".toList then
    match parseI64 val with
    | some secs => { cookie with expires := some (maxAge now secs) }
    | none => cookie
  else if key = "secure".toList then { cookie with secure := true }
  else cookie

def parseSetCookie (raw : Text) (url : Url) (now : UInt64) : Option Cookie := do
  let parts := raw.splitOn ';'
  let (name, value) ← cutAt '=' (parts.headD [])
  if trim name = [] then none
  let cookie : Cookie :=
    { name := trim name, value := trim value, domain := toAsciiLowercase url.host,
      hostOnly := true, path := defaultPath url.pathAndQuery, expires := none, secure := false }
  return parts.tail.foldl (Cookie.withAttribute now) cookie

def Cookie.live (cookie : Cookie) (now : UInt64) : Bool := cookie.expires.all fun e => now < e

abbrev CookieJar := List Cookie

namespace CookieJar

def put (jar : CookieJar) (cookie : Cookie) (now : UInt64) : CookieJar :=
  let kept := jar.filter fun c =>
    !(c.name == cookie.name && c.domain == cookie.domain && c.path == cookie.path)
  if cookie.live now then kept ++ [cookie] else kept

def store (jar : CookieJar) (setCookies : List Text) (url : Url) (now : UInt64) : CookieJar :=
  setCookies.foldl (fun jar raw =>
    match parseSetCookie raw url now with
    | some cookie => jar.put cookie now
    | none => jar) jar

end CookieJar

/-- Whether `header_for` sends a cookie with a request. -/
def Cookie.sentTo (cookie : Cookie) (url : Url) (now : UInt64) : Bool :=
  cookie.live now && (!cookie.secure || url.scheme == https) &&
    domainMatch cookie.domain cookie.hostOnly (toAsciiLowercase url.host) &&
    pathMatch cookie.path url.pathAndQuery

def CookieJar.headerFor (jar : CookieJar) (url : Url) (now : UInt64) : Text :=
  "; ".toList.intercalate ((jar.filter (Cookie.sentTo · url now)).map fun c =>
    c.name ++ '=' :: c.value)

/-- The `Set-Cookie` values of a response, where it came from, and when. -/
structure Delivery where
  setCookies : List Text
  url : Url
  now : UInt64

/-- The jar after these responses. -/
def jarAfter (deliveries : List Delivery) : CookieJar :=
  deliveries.foldl (fun jar d => jar.store d.setCookies d.url d.now) []

/-- A cookie with the `Set-Cookie` value it was parsed from and the URL that sent it. -/
structure Traced where
  cookie : Cookie
  raw : Text
  setBy : Url
  now : UInt64
  parsed : parseSetCookie raw setBy now = some cookie

namespace Traced

def put (jar : List Traced) (traced : Traced) (now : UInt64) : List Traced :=
  let kept := jar.filter fun t => !(t.cookie.name == traced.cookie.name &&
    t.cookie.domain == traced.cookie.domain && t.cookie.path == traced.cookie.path)
  if traced.cookie.live now then kept ++ [traced] else kept

def storeOne (url : Url) (now : UInt64) (jar : List Traced) (raw : Text) : List Traced :=
  match h : parseSetCookie raw url now with
  | some cookie => put jar ⟨cookie, raw, url, now, h⟩ now
  | none => jar

def jarAfter (deliveries : List Delivery) : List Traced :=
  deliveries.foldl (fun jar d => d.setCookies.foldl (storeOne d.url d.now) jar) []

theorem put_cookies (jar : List Traced) (traced : Traced) (now : UInt64) :
    (put jar traced now).map cookie = CookieJar.put (jar.map cookie) traced.cookie now := by
  unfold put CookieJar.put
  rw [List.filter_map]
  split
  next => rw [List.map_append, List.map_singleton]; rfl
  next => rfl

theorem store_cookies (jar : List Traced) (setCookies : List Text) (url : Url) (now : UInt64) :
    (setCookies.foldl (storeOne url now) jar).map cookie =
      CookieJar.store (jar.map cookie) setCookies url now := by
  unfold CookieJar.store
  induction setCookies generalizing jar with
  | nil => rfl
  | cons raw setCookies ih =>
    rw [List.foldl_cons, List.foldl_cons, ih]
    congr 1
    unfold storeOne
    split
    next c h =>
      rw [put_cookies]
      simp only [h]
    next h => simp only [h]

/-- The traces are of the cookies in the jar. -/
theorem jarAfter_cookies (deliveries : List Delivery) :
    (jarAfter deliveries).map cookie = HttpClient.jarAfter deliveries := by
  unfold jarAfter HttpClient.jarAfter
  suffices h : ∀ jar : List Traced,
      (deliveries.foldl (fun jar d => d.setCookies.foldl (storeOne d.url d.now) jar) jar).map
        cookie = deliveries.foldl (fun jar d => CookieJar.store jar d.setCookies d.url d.now)
          (jar.map cookie) from h []
  induction deliveries with
  | nil => exact fun jar => rfl
  | cons d deliveries ih =>
    intro jar
    rw [List.foldl_cons, List.foldl_cons, ih, store_cookies]

theorem storeOne_cases {url : Url} {now : UInt64} {jar : List Traced} {raw : Text} {t : Traced}
    (h : t ∈ storeOne url now jar raw) : t ∈ jar ∨ t.raw = raw ∧ t.setBy = url := by
  unfold storeOne at h
  split at h
  next c hc =>
    unfold put at h
    split at h
    next =>
      rcases List.mem_append.mp h with hkept | hnew
      · exact .inl (List.mem_of_mem_filter hkept)
      · obtain rfl := List.mem_singleton.mp hnew
        exact .inr ⟨rfl, rfl⟩
    next => exact .inl (List.mem_of_mem_filter h)
  next => exact .inl h

theorem store_cases {url : Url} {now : UInt64} {setCookies : List Text} {jar : List Traced}
    {t : Traced} (h : t ∈ setCookies.foldl (storeOne url now) jar) :
    t ∈ jar ∨ t.raw ∈ setCookies ∧ t.setBy = url := by
  induction setCookies generalizing jar with
  | nil => exact .inl h
  | cons raw setCookies ih =>
    rcases ih h with hone | ⟨hraw, hurl⟩
    · rcases storeOne_cases hone with hjar | ⟨rfl, hurl⟩
      · exact .inl hjar
      · exact .inr ⟨List.mem_cons_self .., hurl⟩
    · exact .inr ⟨List.mem_cons_of_mem raw hraw, hurl⟩

/-- Every cookie in the jar was set by one of the responses. -/
theorem mem_jarAfter {deliveries : List Delivery} {t : Traced} (h : t ∈ jarAfter deliveries) :
    ∃ d ∈ deliveries, t.raw ∈ d.setCookies ∧ t.setBy = d.url := by
  unfold jarAfter at h
  suffices hrun : ∀ jar : List Traced,
      t ∈ deliveries.foldl (fun jar d => d.setCookies.foldl (storeOne d.url d.now) jar) jar →
      t ∈ jar ∨ ∃ d ∈ deliveries, t.raw ∈ d.setCookies ∧ t.setBy = d.url by
    rcases hrun [] h with hnil | hset
    · cases hnil
    · exact hset
  clear h
  induction deliveries with
  | nil => exact fun jar hjar => .inl hjar
  | cons d deliveries ih =>
    intro jar hjar
    rcases ih _ hjar with hstore | ⟨d', hd', hset⟩
    · rcases store_cases hstore with hold | hset
      · exact .inl hold
      · exact .inr ⟨d, List.mem_cons_self .., hset⟩
    · exact .inr ⟨d', List.mem_cons_of_mem d hd', hset⟩

end Traced

def attributeDomain (attr : Text) : Option Text :=
  if (splitAttribute attr).1 = "domain".toList ∧ bareDomain (splitAttribute attr).2 ≠ [] then
    some (bareDomain (splitAttribute attr).2)
  else none

/-- The last `Domain` attribute of a `Set-Cookie` value that is not empty. -/
def domainAttribute (raw : Text) : Option Text :=
  ((raw.splitOn ';').tail.filterMap attributeDomain).getLast?

theorem withAttribute_domain (now : UInt64) (cookie : Cookie) (attr : Text) :
    ((cookie.withAttribute now attr).domain, (cookie.withAttribute now attr).hostOnly) =
      match attributeDomain attr with
      | some d => (d, false)
      | none => (cookie.domain, cookie.hostOnly) := by
  unfold Cookie.withAttribute attributeDomain
  obtain ⟨key, val⟩ := splitAttribute attr
  by_cases hkey : key = "domain".toList
  · by_cases hval : bareDomain val = []
    · simp only [hkey, hval, if_true, ne_eq, not_true_eq_false, and_false, if_false]
    · simp only [hkey, hval, if_true, if_false, ne_eq, not_false_eq_true, and_self]
  · simp only [hkey, if_false, false_and]
    split
    next => split <;> rfl
    next =>
      split
      next => split <;> rfl
      next => split <;> rfl

theorem withAttributes_domain (now : UInt64) (cookie : Cookie) (attrs : List Text) :
    ((attrs.foldl (Cookie.withAttribute now) cookie).domain,
        (attrs.foldl (Cookie.withAttribute now) cookie).hostOnly) =
      match (attrs.filterMap attributeDomain).getLast? with
      | some d => (d, false)
      | none => (cookie.domain, cookie.hostOnly) := by
  induction attrs using List.reverseRecOn with
  | nil => rfl
  | append_singleton attrs attr ih =>
    rw [List.foldl_append, List.foldl_cons, List.foldl_nil, withAttribute_domain,
      List.filterMap_append, List.getLast?_append]
    cases hattr : attributeDomain attr with
    | some d => simp [hattr]
    | none => simpa [hattr] using ih

/-- The domain of a cookie is its `Domain` attribute, or else the host that set it. -/
theorem parseSetCookie_domain {raw : Text} {url : Url} {now : UInt64} {cookie : Cookie}
    (h : parseSetCookie raw url now = some cookie) : (cookie.domain, cookie.hostOnly) =
      match domainAttribute raw with
      | some d => (d, false)
      | none => (toAsciiLowercase url.host, true) := by
  obtain ⟨⟨name, value⟩, -, h⟩ := Option.bind_eq_some_iff.mp h
  dsimp only at h
  split at h
  next => cases h
  next =>
    obtain rfl := Option.some.inj h
    exact withAttributes_domain now _ _

/-- The host that set a cookie was allowed to set it for the host it is sent to, and the cookie's
own restrictions hold. -/
structure Permitted (t : Traced) (url : Url) : Prop where
  host : toAsciiLowercase url.host = toAsciiLowercase t.setBy.host ∨
    ∃ d, domainAttribute t.raw = some d ∧
      domainMatch d false (toAsciiLowercase t.setBy.host) = true ∧
      domainMatch d false (toAsciiLowercase url.host) = true
  path : pathMatch t.cookie.path url.pathAndQuery = true
  secure : t.cookie.secure = true → url.scheme = https

/-- Every `Domain` attribute is of the host that sets it or of a domain above it. -/
def Delivery.Own (d : Delivery) : Prop :=
  ∀ raw ∈ d.setCookies, ∀ domain, domainAttribute raw = some domain →
    domainMatch domain false (toAsciiLowercase d.url.host) = true

/-- Where every response has set cookies for its own domains only, a cookie is sent to no host but
those that it was set for. -/
theorem sent_permitted {deliveries : List Delivery} (h : ∀ d ∈ deliveries, d.Own) (url : Url)
    (now : UInt64) : ∀ t ∈ Traced.jarAfter deliveries, t.cookie.sentTo url now = true →
      Permitted t url := by
  intro t ht hsent
  obtain ⟨d, hd, hraw, hurl⟩ := Traced.mem_jarAfter ht
  unfold Cookie.sentTo at hsent
  obtain ⟨⟨⟨-, hsecure⟩, hdomain⟩, hpath⟩ := by simpa only [Bool.and_eq_true] using hsent
  have hparsed := parseSetCookie_domain t.parsed
  refine ⟨?_, hpath, fun hset => ?_⟩
  · cases hattr : domainAttribute t.raw with
    | none =>
      rw [hattr] at hparsed
      obtain ⟨hhost, honly⟩ := Prod.mk.inj hparsed
      rw [hhost, honly] at hdomain
      exact .inl (eq_of_beq hdomain)
    | some domain =>
      rw [hattr] at hparsed
      obtain ⟨hhost, honly⟩ := Prod.mk.inj hparsed
      rw [hhost, honly] at hdomain
      have hown := h d hd t.raw hraw domain hattr
      rw [← hurl] at hown
      exact .inr ⟨domain, rfl, hown, hdomain⟩
  · rw [hset, Bool.not_true, Bool.false_or] at hsecure
    exact eq_of_beq hsecure

def siteOf (host : Text) : Url := ⟨https, host, 443, ['/']⟩

def appDelivery : Delivery where
  setCookies := ["sid=1; Domain=example.com".toList]
  url := siteOf "app.example.com".toList
  now := 0

theorem sent_permitted_app : (∀ d ∈ [appDelivery], d.Own) ∧
    ∀ t ∈ Traced.jarAfter [appDelivery],
      t.cookie.sentTo (siteOf "api.example.com".toList) 5 = true →
        Permitted t (siteOf "api.example.com".toList) := by
  have hown : ∀ d ∈ [appDelivery], d.Own := by
    intro d hd
    obtain rfl := List.mem_singleton.mp hd
    intro raw hraw domain hattr
    obtain rfl := List.mem_singleton.mp hraw
    obtain rfl : "example.com".toList = domain := Option.some.inj ((by decide : _ = _).trans hattr)
    decide
  exact ⟨hown, sent_permitted hown _ 5⟩

def evilDelivery : Delivery where
  setCookies := ["sid=1; Domain=bank.example".toList]
  url := siteOf "evil.example".toList
  now := 0

/-- A host plants a cookie on another. -/
theorem not_sent_permitted : ¬ ∀ deliveries url now, ∀ t ∈ Traced.jarAfter deliveries,
    t.cookie.sentTo url now = true → Permitted t url := by
  intro hall
  let bank := siteOf "bank.example".toList
  let planted : Cookie :=
    ⟨"sid".toList, ['1'], "bank.example".toList, false, ['/'], none, false⟩
  have hjar : (Traced.jarAfter [evilDelivery]).map Traced.cookie = [planted] := by
    rw [Traced.jarAfter_cookies]
    decide
  obtain ⟨t, ht, hcookie⟩ := List.mem_map.mp (hjar ▸ List.mem_singleton.mpr rfl)
  have hsent : t.cookie.sentTo bank 5 = true := by
    rw [hcookie]
    decide
  obtain ⟨d, hd, hraw, hurl⟩ := Traced.mem_jarAfter ht
  obtain rfl := List.mem_singleton.mp hd
  have hpermitted := (hall _ _ _ t ht hsent).host
  rw [hurl, List.mem_singleton.mp hraw] at hpermitted
  rcases hpermitted with hhost | ⟨domain, hattr, hown, -⟩
  · exact absurd hhost (by decide)
  · obtain rfl : "bank.example".toList = domain :=
      Option.some.inj ((by decide : _ = _).trans hattr)
    exact absurd hown (by decide)

end Kernway.HttpClient
