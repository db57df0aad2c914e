import Kernway.ClientCookies
import Kernway.HttpHeadLines
import Kernway.LastWrites

namespace Kernway.HttpClient

def Cookie.identity (cookie : Cookie) : Text × Text × Text :=
  (cookie.name, cookie.domain, cookie.path)

/-- The pair a `Cookie` header has for a cookie. -/
def Cookie.pair (cookie : Cookie) : Text := cookie.name ++ '=' :: cookie.value

def readPair (pair : Text) : Option (Text × Text) :=
  (cutAt '=' pair).map fun cut => (trim cut.1, trim cut.2)

/-- The names and values of a `Cookie` header, read as `token_from_cookie` reads it. -/
def cookiePairs (header : Text) : List (Text × Text) := (header.splitOn ';').filterMap readPair

def attributeMaxAge (attr : Text) : Option Int64 :=
  if (splitAttribute attr).1 = "max-age".toList then parseI64 (splitAttribute attr).2 else none

/-- The last `Max-Age` attribute of a `Set-Cookie` value that is a number of 64 bits. -/
def maxAgeAttribute (raw : Text) : Option Int64 :=
  ((raw.splitOn ';').tail.filterMap attributeMaxAge).getLast?

namespace Traced

def identity (t : Traced) : Text × Text × Text := t.cookie.identity

/-- The cookie lives for as many seconds as its `Max-Age` says, and to the clock's end at most. -/
def Fresh (t : Traced) (now : UInt64) : Prop :=
  ∀ secs, maxAgeAttribute t.raw = some secs →
    (now.toNat : Int) < min (t.now.toNat + secs.toInt) (2 ^ 64 - 1)

def Matches (t : Traced) (url : Url) : Prop :=
  (t.cookie.secure = true → url.scheme = https) ∧
    domainMatch t.cookie.domain t.cookie.hostOnly (toAsciiLowercase url.host) = true ∧
    pathMatch t.cookie.path url.pathAndQuery = true

def ofRaw (url : Url) (now : UInt64) (raw : Text) : Option Traced :=
  match h : parseSetCookie raw url now with
  | some cookie => some ⟨cookie, raw, url, now, h⟩
  | none => none

/-- The cookies of these responses, in the order they came in. -/
def history (deliveries : List Delivery) : List Traced :=
  deliveries.flatMap fun d => d.setCookies.flatMap fun raw => (ofRaw d.url d.now raw).toList

/-- The cookie that was set last under an identity. -/
def lastSet (deliveries : List Delivery) (id : Text × Text × Text) : Option Traced :=
  LastWrites.last identity (history deliveries) id

theorem mem_ofRaw {url : Url} {now : UInt64} {raw : Text} {t : Traced}
    (h : t ∈ (ofRaw url now raw).toList) : t.now = now := by
  unfold ofRaw at h
  split at h
  next =>
    obtain rfl := List.mem_singleton.mp h
    rfl
  next => cases h

theorem now_of_mem_history {deliveries : List Delivery} {t : Traced} (h : t ∈ history deliveries) :
    ∃ d ∈ deliveries, t.now = d.now := by
  obtain ⟨d, hd, hraws⟩ := List.mem_flatMap.mp h
  obtain ⟨raw, -, hraw⟩ := List.mem_flatMap.mp hraws
  exact ⟨d, hd, mem_ofRaw hraw⟩

theorem put_eq (jar : List Traced) (t : Traced) :
    put jar t t.now = LastWrites.put identity (fun t => t.cookie.live t.now) jar t := by
  have hfilter : (jar.filter fun c => !(c.cookie.name == t.cookie.name &&
      c.cookie.domain == t.cookie.domain && c.cookie.path == t.cookie.path)) =
      jar.filter fun c => c.identity ≠ t.identity := by
    apply List.filter_congr
    intro c _
    rw [Bool.eq_iff_iff]
    simp [identity, Cookie.identity, or_assoc]
  unfold put LastWrites.put
  rw [hfilter]
  split
  next => rfl
  next => rw [List.append_nil]

theorem ofRaw_of_some {url : Url} {now : UInt64} {raw : Text} {cookie : Cookie}
    (h : parseSetCookie raw url now = some cookie) :
    ofRaw url now raw = some ⟨cookie, raw, url, now, h⟩ := by
  unfold ofRaw
  split
  next cookie' h' =>
    obtain rfl : cookie = cookie' := Option.some.inj (h.symm.trans h')
    rfl
  next h' =>
    rw [h] at h'
    cases h'

theorem ofRaw_of_none {url : Url} {now : UInt64} {raw : Text}
    (h : parseSetCookie raw url now = none) : ofRaw url now raw = none := by
  unfold ofRaw
  split
  next cookie' h' =>
    rw [h] at h'
    cases h'
  next => rfl

theorem storeOne_eq (url : Url) (now : UInt64) (jar : List Traced) (raw : Text) :
    storeOne url now jar raw = (ofRaw url now raw).toList.foldl
      (LastWrites.put identity fun t => t.cookie.live t.now) jar := by
  -- the cookie is parsed once on each side, so each side is looked at alone
  generalize hparsed : ofRaw url now raw = parsed
  unfold storeOne
  split
  next cookie h =>
    rw [← hparsed, ofRaw_of_some h]
    exact put_eq jar ⟨cookie, raw, url, now, h⟩
  next h =>
    rw [← hparsed, ofRaw_of_none h]
    rfl

/-- The jar holds each last write that was no deletion. -/
theorem jarAfter_eq (deliveries : List Delivery) :
    jarAfter deliveries =
      LastWrites.run identity (fun t => t.cookie.live t.now) (history deliveries) := by
  have hone : storeOne = fun url now jar raw => (ofRaw url now raw).toList.foldl
      (LastWrites.put identity fun t => t.cookie.live t.now) jar := by
    funext url now jar raw
    exact storeOne_eq url now jar raw
  unfold jarAfter LastWrites.run history
  rw [List.foldl_flatMap, hone]
  congr 1
  funext jar d
  rw [List.foldl_flatMap]

end Traced

section Attributes

theorem withAttribute_expires (now : UInt64) (cookie : Cookie) (attr : Text) :
    (cookie.withAttribute now attr).expires =
      ((attributeMaxAge attr).map (maxAge now)).or cookie.expires := by
  unfold Cookie.withAttribute attributeMaxAge
  obtain ⟨key, val⟩ := splitAttribute attr
  dsimp only
  split
  next hkey =>
    have hne : key ≠ "max-age".toList := by
      rw [hkey]
      decide
    rw [if_neg hne]
    split <;> rfl
  next =>
    split
    next hkey =>
      have hne : key ≠ "max-age".toList := by
        rw [hkey]
        decide
      rw [if_neg hne]
      split <;> rfl
    next =>
      split
      next hkey =>
        cases parseI64 val with
        | some secs => rfl
        | none => rfl
      next => split <;> rfl

theorem withAttributes_expires (now : UInt64) (cookie : Cookie) (attrs : List Text) :
    (attrs.foldl (Cookie.withAttribute now) cookie).expires =
      ((attrs.filterMap attributeMaxAge).getLast?.map (maxAge now)).or cookie.expires := by
  induction attrs using List.reverseRecOn with
  | nil => rfl
  | append_singleton attrs attr ih =>
    rw [List.foldl_append, List.foldl_cons, List.foldl_nil, withAttribute_expires,
      List.filterMap_append, List.getLast?_append, ih]
    cases hattr : attributeMaxAge attr with
    | some secs => simp [hattr]
    | none => simp [hattr]

theorem withAttribute_pair (now : UInt64) (cookie : Cookie) (attr : Text) :
    (cookie.withAttribute now attr).name = cookie.name ∧
      (cookie.withAttribute now attr).value = cookie.value := by
  unfold Cookie.withAttribute
  obtain ⟨key, val⟩ := splitAttribute attr
  dsimp only
  split
  next => split <;> exact ⟨rfl, rfl⟩
  next =>
    split
    next => split <;> exact ⟨rfl, rfl⟩
    next =>
      split
      next => split <;> exact ⟨rfl, rfl⟩
      next => split <;> exact ⟨rfl, rfl⟩

theorem withAttributes_pair (now : UInt64) (cookie : Cookie) (attrs : List Text) :
    (attrs.foldl (Cookie.withAttribute now) cookie).name = cookie.name ∧
      (attrs.foldl (Cookie.withAttribute now) cookie).value = cookie.value := by
  induction attrs generalizing cookie with
  | nil => exact ⟨rfl, rfl⟩
  | cons attr attrs ih =>
    obtain ⟨hname, hvalue⟩ := withAttribute_pair now cookie attr
    obtain ⟨hname', hvalue'⟩ := ih (cookie.withAttribute now attr)
    exact ⟨hname'.trans hname, hvalue'.trans hvalue⟩

variable {raw : Text} {url : Url} {now : UInt64} {cookie : Cookie}

theorem parseSetCookie_expires (h : parseSetCookie raw url now = some cookie) :
    cookie.expires = (maxAgeAttribute raw).map (maxAge now) := by
  obtain ⟨⟨name, value⟩, -, h⟩ := Option.bind_eq_some_iff.mp h
  dsimp only at h
  split at h
  next => cases h
  next =>
    obtain rfl := Option.some.inj h
    refine (withAttributes_expires now _ _).trans ?_
    rw [Option.or_none]
    rfl

theorem notMem_trim {c : Char} {s : Text} (h : c ∉ s) : c ∉ trim s := by
  obtain ⟨before, after, hs⟩ := infix_trim s
  intro hc
  apply h
  rw [hs]
  exact List.mem_append_left _ (List.mem_append_right _ hc)

/-- No name or value has the signs between the pairs, or blanks around it. -/
theorem parseSetCookie_pair (h : parseSetCookie raw url now = some cookie) :
    (';' ∉ cookie.name ∧ '=' ∉ cookie.name ∧ trim cookie.name = cookie.name) ∧
      ';' ∉ cookie.value ∧ trim cookie.value = cookie.value := by
  obtain ⟨⟨name, value⟩, hcut, h⟩ := Option.bind_eq_some_iff.mp h
  obtain ⟨hfirst, hsign⟩ := cutAt_eq_some_iff.mp hcut
  dsimp only at h
  split at h
  next => cases h
  next =>
    obtain rfl := Option.some.inj h
    have hfree : ';' ∉ name ++ '=' :: value := by
      rw [← hfirst]
      cases hparts : raw.splitOn ';' with
      | nil => exact List.not_mem_nil
      | cons first parts =>
        have hin : first ∈ raw.splitOn ';' := by
          rw [hparts]
          exact List.mem_cons_self
        exact notMem_of_mem_splitOn hin
    have hname : ';' ∉ name := fun hc => hfree (List.mem_append_left _ hc)
    have hvalue : ';' ∉ value := fun hc =>
      hfree (List.mem_append_right _ (List.mem_cons_of_mem _ hc))
    obtain ⟨hn, hv⟩ := withAttributes_pair now
      { name := trim name, value := trim value, domain := toAsciiLowercase url.host,
        hostOnly := true, path := defaultPath url.pathAndQuery, expires := none, secure := false }
      (raw.splitOn ';').tail
    rw [hn, hv]
    exact ⟨⟨notMem_trim hname, notMem_trim hsign, trim_trim name⟩, notMem_trim hvalue,
      trim_trim value⟩

end Attributes

namespace Traced

variable {t : Traced} {now : UInt64}

/-- A cookie is live for the jar for as long as its `Max-Age` says. -/
theorem live_iff_fresh (h : t.now ≤ now) : t.cookie.live now = true ↔ t.Fresh now := by
  have hle : t.now.toNat ≤ now.toNat := UInt64.le_iff_toNat_le.mp h
  have hlt := now.toNat_lt
  unfold Cookie.live Fresh
  rw [parseSetCookie_expires t.parsed]
  cases maxAgeAttribute t.raw with
  | none =>
    constructor
    · intro _ secs hsecs
      cases hsecs
    · intro _
      rfl
  | some secs =>
    have hfresh : (∀ secs', some secs = some secs' →
        (now.toNat : Int) < min (t.now.toNat + secs'.toInt) (2 ^ 64 - 1)) ↔
        (now.toNat : Int) < min (t.now.toNat + secs.toInt) (2 ^ 64 - 1) := by
      constructor
      · exact fun h => h secs rfl
      · intro h secs' heq
        rwa [← Option.some.inj heq]
    rw [hfresh]
    show decide (now < maxAge t.now secs) = true ↔ _
    rw [decide_eq_true_iff, UInt64.lt_iff_toNat_lt]
    unfold maxAge
    have hsign : secs ≤ 0 ↔ secs.toInt ≤ 0 := Int64.le_iff_toInt_le
    split
    next hneg =>
      have hsecs := hsign.mp hneg
      have hzero : (0 : UInt64).toNat = 0 := rfl
      omega
    next hpos =>
      have hsecs : 0 < secs.toInt := by
        by_contra hnot
        exact hpos (hsign.mpr (by omega))
      split
      next hfits =>
        rw [UInt64.toNat_ofNat_of_lt' hfits]
        omega
      next hover =>
        have hlast : (UInt64.ofNat (2 ^ 64 - 1)).toNat = 2 ^ 64 - 1 := rfl
        rw [hlast]
        omega

/-- A `Max-Age` that is not positive makes a deletion. -/
theorem not_live_of_maxAge {secs : Int64} (h : maxAgeAttribute t.raw = some secs) (hsecs : secs ≤ 0) :
    t.cookie.live t.now = false := by
  unfold Cookie.live
  rw [parseSetCookie_expires t.parsed, h]
  show decide (t.now < maxAge t.now secs) = false
  rw [maxAge, if_pos hsecs]
  exact decide_eq_false (by simp)

theorem store_self (jar : CookieJar) (t : Traced) :
    jar.store [t.raw] t.setBy t.now = jar.put t.cookie t.now := by
  unfold CookieJar.store
  rw [List.foldl_cons, List.foldl_nil, t.parsed]

theorem store_deletion (jar : CookieJar) {secs : Int64} (h : maxAgeAttribute t.raw = some secs)
    (hsecs : secs ≤ 0) :
    jar.store [t.raw] t.setBy t.now = jar.filter fun c => c.identity ≠ t.cookie.identity := by
  rw [store_self, CookieJar.put, not_live_of_maxAge h hsecs, if_neg Bool.false_ne_true]
  apply List.filter_congr
  intro c _
  rw [Bool.eq_iff_iff]
  simp [Cookie.identity, or_assoc]

theorem matches_iff {url : Url} :
    t.cookie.sentTo url now = true ↔ t.cookie.live now = true ∧ t.Matches url := by
  unfold Cookie.sentTo Matches
  rw [Bool.and_eq_true, Bool.and_eq_true, Bool.and_eq_true, and_assoc, and_assoc]
  cases t.cookie.secure <;> simp

end Traced

section Header

theorem Cookie.live_of_le {cookie : Cookie} {t now : UInt64} (hle : t ≤ now)
    (h : cookie.live now = true) : cookie.live t = true := by
  unfold Cookie.live at h ⊢
  cases hexp : cookie.expires with
  | none => rfl
  | some e =>
    rw [hexp] at h
    have hlt : now < e := of_decide_eq_true h
    exact decide_eq_true (UInt64.lt_of_le_of_lt hle hlt)

theorem headerFor_eq (jar : CookieJar) (url : Url) (now : UInt64) :
    jar.headerFor url now =
      "; ".toList.intercalate ((jar.filter (Cookie.sentTo · url now)).map Cookie.pair) := rfl

/-- The signs between and in the pairs are no blanks. -/
theorem signs_notMem {w : Text} (hw : ∀ c ∈ w, isWhitespace c = true) : ';' ∉ w ∧ '=' ∉ w := by
  have hsemicolon : isWhitespace ';' = false := rfl
  have hequals : isWhitespace '=' = false := rfl
  constructor
  · intro h
    rw [hw _ h] at hsemicolon
    cases hsemicolon
  · intro h
    rw [hw _ h] at hequals
    cases hequals

/-- The pairs of a header come back, with blanks before them too. -/
theorem cookiePairs_joined {cookies : List Cookie}
    (h : ∀ c ∈ cookies, (';' ∉ c.name ∧ '=' ∉ c.name ∧ trim c.name = c.name) ∧
      ';' ∉ c.value ∧ trim c.value = c.value) {w : Text} (hw : ∀ c ∈ w, isWhitespace c = true) :
    cookiePairs (w ++ "; ".toList.intercalate (cookies.map Cookie.pair)) =
      cookies.map fun c => (c.name, c.value) := by
  induction cookies generalizing w with
  | nil =>
    obtain ⟨hsemicolon, hequals⟩ := signs_notMem hw
    have hnone : readPair w = none := by
      unfold readPair
      rw [cutAt_eq_none_iff.mpr hequals]
      rfl
    unfold cookiePairs
    rw [List.map_nil, List.intercalate_nil, List.append_nil, List.splitOn_eq_singleton hsemicolon,
      List.filterMap_cons_none hnone]
    rfl
  | cons c cookies ih =>
    obtain ⟨hsemicolon, hequals⟩ := signs_notMem hw
    obtain ⟨⟨hname, hsign, htrimn⟩, hvalue, htrimv⟩ := h c List.mem_cons_self
    have hspace : ∀ c ∈ [' '], isWhitespace c = true := by
      intro c hc
      rw [List.mem_singleton.mp hc]
      rfl
    have hrest := ih (fun c' hc' => h c' (List.mem_cons_of_mem c hc')) hspace
    have hpair : ';' ∉ w ++ c.pair := by
      unfold Cookie.pair
      rw [List.mem_append, List.mem_append, List.mem_cons]
      rintro (hin | hin | hin | hin)
      · exact hsemicolon hin
      · exact hname hin
      · cases hin
      · exact hvalue hin
    have hcut : cutAt '=' (w ++ c.pair) = some (w ++ c.name, c.value) := by
      apply cutAt_eq_some_iff.mpr
      refine ⟨(List.append_assoc ..).symm, ?_⟩
      rw [List.mem_append]
      rintro (hin | hin)
      · exact hequals hin
      · exact hsign hin
    have htrim : trim (w ++ c.name) = c.name := by
      have htrim := trim_around hw (fun c hc => absurd hc List.not_mem_nil) c.name
      rwa [List.append_nil, htrimn] at htrim
    have hread : readPair (w ++ c.pair) = some (c.name, c.value) := by
      unfold readPair
      rw [hcut, Option.map_some, htrim, htrimv]
    cases cookies with
    | nil =>
      have hone : w ++ "; ".toList.intercalate ([c].map Cookie.pair) = w ++ c.pair := by
        simp
      rw [hone]
      unfold cookiePairs
      rw [List.splitOn_eq_singleton hpair, List.filterMap_cons_some hread]
      rfl
    | cons next cookies =>
      have hjoin : w ++ "; ".toList.intercalate ((c :: next :: cookies).map Cookie.pair) =
          (w ++ c.pair) ++ ';' :: ([' '] ++
            "; ".toList.intercalate ((next :: cookies).map Cookie.pair)) := by
        simp [List.intercalate]
      unfold cookiePairs at hrest ⊢
      rw [hjoin, List.splitOn_append_cons_self_of_not_mem hpair, List.filterMap_cons_some hread,
        hrest]
      rfl

end Header

end Kernway.HttpClient
