import Kernway.HttpFraming
import Kernway.ResponseLayers

namespace Kernway

/-- The names in a list field, in lower case. -/
def listTokens (value : Text) : List Text :=
  ((value.splitOn ',').map fun part => toAsciiLowercase (trimOws part)).filter (· ≠ [])

namespace Response

def setCookies (response : Response) : List Text := response.headers.values "set-cookie".toList

def varyTokens (response : Response) : List Text :=
  (response.headers.values "vary".toList).flatMap listTokens

/-- Its headers were made by the operations of `Fields`. -/
def WellFormed (response : Response) : Prop := ∃ pairs, response.headers.Holds pairs

end Response

/-- A response has the cookies and names in `Vary` the names that it owes. -/
structure Carried (cookies tokens : List Text) (response : Response) : Prop where
  cookies : ∀ cookie ∈ cookies, cookie ∈ response.setCookies
  vary : ∀ token ∈ tokens, token ∈ response.varyTokens

def accepted : Text := "accept-encoding".toList

def requested : Text := "hx-request".toList

variable {S : Type}

namespace Layer

/-- The request field that a layer's output depended on, from the response it was given. -/
def listed (env : LayerEnv S) (req : Request) (response : Response) : Layer → List Text
  | tracking _ => []
  | cors c => if (c.allowed req).isSome then ["origin".toList] else []
  | compression c =>
    if (Compression.shrunk env.codec c.minSize (Compression.accept req) response).isSome then
      [accepted] else []
  | htmx wrapper => if wrapper.varyOnRequest then [requested] else []

end Layer

def Outcome.setCookies : Outcome → List Text
  | .ok response => response.setCookies
  | .error _ => []

def Outcome.varyTokens : Outcome → List Text
  | .ok response => response.varyTokens
  | .error _ => []

/-- The cookies that the handler set, if it ran. -/
def owedCookies (env : LayerEnv S) (terminal : Request → S → Outcome × S) :
    List Layer → Request → S → List Text
  | [], req, s => (terminal req s).1.setCookies
  | layer :: rest, req, s =>
    match layer.answer req with
    | some _ => []
    | none => owedCookies env terminal rest req (layer.enter env req s)

/-- The names that the handler listed and those of the layers that added theirs. -/
def owedTokens (env : LayerEnv S) (terminal : Request → S → Outcome × S) :
    List Layer → Request → S → List Text
  | [], req, s => (terminal req s).1.varyTokens
  | layer :: rest, req, s =>
    match layer.answer req with
    | some _ => layer.listed env req (Response.new 204)
    | none =>
      match runLayers env terminal rest req (layer.enter env req s) with
      | .ok response =>
        owedTokens env terminal rest req (layer.enter env req s) ++ layer.listed env req response
      | .error _ => []

/-- What leaves a stack carries what the handler and the layers put in. -/
def StackCarries (env : LayerEnv S) (terminal : Request → S → Outcome × S) (stack : List Layer)
    (req : Request) (s : S) : Prop :=
  ∀ response, runLayers env terminal stack req s = .ok response →
    Carried (owedCookies env terminal stack req s) (owedTokens env terminal stack req s) response

/-- A name can be added to the last `Vary` value, and nothing is lost by it: where the value has the
name's text in it, it lists the name, and otherwise there is no other value that lists more. -/
def Appends (token : Text) (response : Response) : Prop :=
  ∀ existing, response.headers.get "vary".toList = some existing →
    if containsText (toAsciiLowercase existing) token then token ∈ response.varyTokens
    else ∀ t ∈ response.varyTokens, t = token ∨ t ∈ listTokens existing

namespace Layer

/-- A layer that sets a cookie finds none of the handler's but that one. -/
def SparesCookies (env : LayerEnv S) (req : Request) (s : S) (cookies : List Text) : Layer → Prop
  | tracking _ => ∀ fresh ∈ VisitorTracking.newCookie env req s, ∀ c ∈ cookies, c = fresh
  | _ => True

/-- A layer that sets `Vary` finds no name there but its own, and one that adds to it loses none. -/
def SparesVary (env : LayerEnv S) (req : Request) (response : Response) : Layer → Prop
  | tracking _ => True
  | cors c => (c.allowed req).isSome → ∀ t ∈ response.varyTokens, t = "origin".toList
  | compression c =>
    (Compression.shrunk env.codec c.minSize (Compression.accept req) response).isSome →
      Appends accepted response
  | htmx wrapper => wrapper.varyOnRequest = true → Appends requested response

/-- The step of a layer, if it takes one, spares what the response holds. -/
def Spares (env : LayerEnv S) (terminal : Request → S → Outcome × S) (layer : Layer)
    (rest : List Layer) (req : Request) (s : S) : Prop :=
  layer.answer req = none →
    ∀ response, runLayers env terminal rest req (layer.enter env req s) = .ok response →
      (layer.finish env req s response).isSome →
      layer.SparesCookies env req s (owedCookies env terminal rest req (layer.enter env req s)) ∧
        layer.SparesVary env req response

end Layer

namespace Response

variable {r r' : Response} {name value : Text}

/-- What `withHeader` leaves of the other list fields. -/
theorem withHeader_fields (hr : r.WellFormed) (h : r.withHeader name value = some r')
    (hcookie : Fields.sameName true name "set-cookie".toList = false)
    (hvary : Fields.sameName true name "vary".toList = false) :
    r'.WellFormed ∧ r'.setCookies = r.setCookies ∧
      r'.headers.values "vary".toList = r.headers.values "vary".toList := by
  obtain ⟨pairs, hpairs⟩ := hr
  obtain ⟨headers, hheaders, rfl⟩ := Option.map_eq_some_iff.mp h
  exact ⟨⟨_, Fields.insert_holds hpairs hheaders⟩,
    Fields.insert_values_other hpairs hheaders hcookie,
    Fields.insert_values_other hpairs hheaders hvary⟩

theorem withHeader_vary (hr : r.WellFormed) (h : r.withHeader "vary".toList value = some r') :
    r'.WellFormed ∧ r'.setCookies = r.setCookies ∧ r'.varyTokens = listTokens value := by
  obtain ⟨pairs, hpairs⟩ := hr
  obtain ⟨headers, hheaders, rfl⟩ := Option.map_eq_some_iff.mp h
  refine ⟨⟨_, Fields.insert_holds hpairs hheaders⟩,
    Fields.insert_values_other hpairs hheaders (by decide), ?_⟩
  rw [varyTokens, Fields.insert_values_same hpairs hheaders, List.flatMap_singleton]

theorem withHeader_cookie (hr : r.WellFormed)
    (h : r.withHeader "set-cookie".toList value = some r') :
    r'.WellFormed ∧ r'.setCookies = [value] ∧ r'.varyTokens = r.varyTokens := by
  obtain ⟨pairs, hpairs⟩ := hr
  obtain ⟨headers, hheaders, rfl⟩ := Option.map_eq_some_iff.mp h
  refine ⟨⟨_, Fields.insert_holds hpairs hheaders⟩, Fields.insert_values_same hpairs hheaders, ?_⟩
  rw [varyTokens, varyTokens, Fields.insert_values_other hpairs hheaders (by decide)]

theorem get_vary (hr : r.WellFormed) :
    r.headers.get "vary".toList = (r.headers.values "vary".toList).getLast? := by
  obtain ⟨pairs, hpairs⟩ := hr
  exact Fields.get_eq_getLast hpairs _

theorem wellFormed_new (status : UInt16) : (Response.new status).WellFormed :=
  ⟨[], Fields.holds_nil⟩

end Response

/-- What a step of a layer makes of the list fields, where `listed` are its own names. -/
structure Stepped (listed : List Text) (spared : Prop) (r r' : Response) : Prop where
  wellFormed : r'.WellFormed
  subset : ∀ t ∈ r'.varyTokens, t ∈ r.varyTokens ++ listed
  kept : (∀ t ∈ r.varyTokens ++ listed, t ∈ r'.varyTokens) ↔ spared

/-- A step that leaves the names alone. -/
theorem Stepped.same {r r' : Response} (h : r'.WellFormed) (heq : r'.varyTokens = r.varyTokens) :
    Stepped [] True r r' where
  wellFormed := h
  subset t ht := by simpa [heq] using ht
  kept := by simp [heq]

theorem listTokens_append (value token : Text) :
    listTokens (value ++ ", ".toList ++ token) = listTokens value ++ listTokens (' ' :: token) := by
  have hsplit : (value ++ ", ".toList ++ token).splitOn ',' =
      value.splitOn ',' ++ (' ' :: token).splitOn ',' := by
    rw [List.append_assoc]
    exact List.splitOn_append_cons_self _ _
  rw [listTokens, hsplit, List.map_append, List.filter_append]
  rfl

theorem appendVary_spec {token : Text} (htoken : listTokens token = [toAsciiLowercase token])
    (hspaced : listTokens (' ' :: token) = [toAsciiLowercase token]) {r r' : Response}
    (hr : r.WellFormed) (h : appendVary token r = some r') :
    r'.setCookies = r.setCookies ∧
      Stepped [toAsciiLowercase token] (Appends (toAsciiLowercase token) r) r r' := by
  have hlast := Response.get_vary hr
  unfold appendVary at h
  split at h
  next existing hexisting =>
    have hmem : existing ∈ r.headers.values "vary".toList :=
      List.mem_of_getLast? (hlast.symm.trans hexisting)
    split at h
    next hin =>
      cases h
      refine ⟨rfl, hr, fun t ht => List.mem_append_left _ ht, ?_⟩
      constructor
      · intro hkept existing' hexisting'
        obtain rfl := Option.some.inj (hexisting.symm.trans hexisting')
        rw [if_pos hin]
        exact hkept _ (by simp)
      · intro happends t ht
        have hthere := happends existing hexisting
        rw [if_pos hin] at hthere
        rcases List.mem_append.mp ht with ht | ht
        · exact ht
        · rwa [List.mem_singleton.mp ht]
    next hout =>
      obtain ⟨hwell, hcookies, htokens⟩ := Response.withHeader_vary hr h
      rw [listTokens_append, hspaced] at htokens
      refine ⟨hcookies, hwell, fun t ht => ?_, ?_⟩
      · rw [htokens, List.mem_append] at ht
        refine List.mem_append.mpr (ht.imp_left fun ht => ?_)
        exact List.mem_flatMap.mpr ⟨existing, hmem, ht⟩
      · rw [htokens]
        constructor
        · intro hkept existing' hexisting'
          obtain rfl := Option.some.inj (hexisting.symm.trans hexisting')
          rw [if_neg hout]
          intro t ht
          have := hkept t (List.mem_append_left _ ht)
          simpa [or_comm] using this
        · intro happends t ht
          have hall := happends existing hexisting
          rw [if_neg hout] at hall
          rcases List.mem_append.mp ht with ht | ht
          · simpa [or_comm] using hall t ht
          · exact List.mem_append_right _ ht
  next hnone =>
    have hempty : r.varyTokens = [] := by
      rw [hnone] at hlast
      rw [Response.varyTokens, List.getLast?_eq_none_iff.mp hlast.symm, List.flatMap_nil]
    obtain ⟨hwell, hcookies, htokens⟩ := Response.withHeader_vary hr h
    rw [htoken] at htokens
    refine ⟨hcookies, hwell, ?_, ?_⟩
    · rw [htokens, hempty]
      simp
    · have happends : Appends (toAsciiLowercase token) r := by
        intro existing hexisting
        cases hnone.symm.trans hexisting
      rw [htokens, hempty]
      simp [happends]

theorem Stepped.of_iff {listed : List Text} {p q : Prop} {r r' : Response}
    (h : Stepped listed p r r') (hpq : p ↔ q) : Stepped listed q r r' :=
  ⟨h.wellFormed, h.subset, h.kept.trans hpq⟩

/-- The fields of two responses that the layers share. -/
structure SameFields (r r' : Response) : Prop where
  wellFormed : r'.WellFormed
  cookies : r'.setCookies = r.setCookies
  vary : r'.headers.values "vary".toList = r.headers.values "vary".toList

namespace SameFields

variable {r r' r'' : Response}

theorem refl (h : r.WellFormed) : SameFields r r := ⟨h, rfl, rfl⟩

theorem trans (h : SameFields r r') (h' : SameFields r' r'') : SameFields r r'' :=
  ⟨h'.wellFormed, h'.cookies.trans h.cookies, h'.vary.trans h.vary⟩

theorem varyTokens (h : SameFields r r') : r'.varyTokens = r.varyTokens := by
  rw [Response.varyTokens, Response.varyTokens, h.vary]

theorem appends (hr : r.WellFormed) (h : SameFields r r') (token : Text) :
    Appends token r' ↔ Appends token r := by
  unfold Appends
  rw [Response.get_vary h.wellFormed, Response.get_vary hr, h.vary, h.varyTokens]

theorem withHeader {name value : Text} (hr : r.WellFormed) (h : r.withHeader name value = some r')
    (hcookie : Fields.sameName true name "set-cookie".toList = false)
    (hvary : Fields.sameName true name "vary".toList = false) : SameFields r r' := by
  obtain ⟨hwell, hcookies, hvalues⟩ := Response.withHeader_fields hr h hcookie hvary
  exact ⟨hwell, hcookies, hvalues⟩

theorem withHeaderIf {condition : Bool} {name value : Text} (hr : r.WellFormed)
    (h : r.withHeaderIf condition name value = some r')
    (hcookie : Fields.sameName true name "set-cookie".toList = false)
    (hvary : Fields.sameName true name "vary".toList = false) : SameFields r r' := by
  unfold Response.withHeaderIf at h
  split at h
  next => exact .withHeader hr h hcookie hvary
  next =>
    cases h
    exact .refl hr

/-- A name added after some changes elsewhere. -/
theorem stepped {listed : List Text} {token : Text} (hr : r.WellFormed) (h : SameFields r r')
    (hstep : Stepped listed (Appends token r') r' r'') :
    Stepped listed (Appends token r) r r'' := by
  obtain ⟨hwell, hsubset, hkept⟩ := hstep
  rw [h.varyTokens] at hsubset hkept
  exact ⟨hwell, hsubset, hkept.trans (h.appends hr token)⟩

end SameFields

theorem accepted_eq : toAsciiLowercase "Accept-Encoding".toList = accepted := by decide

theorem requested_eq : toAsciiLowercase "HX-Request".toList = requested := by decide

namespace Cors

variable {cors : Cors} {r r' : Response}

theorem stampCommon_spec {origin : Text} (hr : r.WellFormed)
    (h : cors.stampCommon r origin = some r') :
    r'.WellFormed ∧ r'.setCookies = r.setCookies ∧ r'.varyTokens = ["origin".toList] := by
  obtain ⟨r₁, h₁, h⟩ := Option.bind_eq_some_iff.mp h
  obtain ⟨r₂, h₂, h⟩ := Option.bind_eq_some_iff.mp h
  have hs₁ := SameFields.withHeader hr h₁ (by decide) (by decide)
  have hs₂ := SameFields.withHeaderIf hs₁.wellFormed h₂ (by decide) (by decide)
  obtain ⟨hwell, hcookies, hvary⟩ := Response.withHeader_vary hs₂.wellFormed h
  refine ⟨hwell, hcookies.trans (hs₁.trans hs₂).cookies, hvary.trans ?_⟩
  decide

theorem finish_spec {req : Request} (hr : r.WellFormed) (h : cors.finish req r = some r') :
    r'.setCookies = r.setCookies ∧
      Stepped (if (cors.allowed req).isSome then ["origin".toList] else [])
        ((cors.allowed req).isSome → ∀ t ∈ r.varyTokens, t = "origin".toList) r r' := by
  unfold finish at h
  split at h
  next hnone =>
    cases h
    rw [hnone]
    exact ⟨rfl, (Stepped.same hr rfl).of_iff (by simp)⟩
  next origin horigin =>
    obtain ⟨r₁, h₁, h⟩ := Option.bind_eq_some_iff.mp h
    obtain ⟨hwell, hcookies, hvary⟩ := stampCommon_spec hr h₁
    have hs := SameFields.withHeaderIf hwell h (by decide) (by decide)
    have htokens := hs.varyTokens.trans hvary
    refine ⟨hs.cookies.trans hcookies, hs.wellFormed, ?_, ?_⟩
    · rw [htokens, horigin]
      simp
    · rw [htokens, horigin]
      simp [or_imp]

end Cors

namespace Compression

theorem compress_spec {codec : Compress.Encoding → Bytes → Bytes} {accept : Text} {minSize : Nat}
    {r r' : Response} (hr : r.WellFormed) (h : compress codec r accept minSize = some r') :
    r'.setCookies = r.setCookies ∧
      Stepped (if (shrunk codec minSize accept r).isSome then [accepted] else [])
        ((shrunk codec minSize accept r).isSome → Appends accepted r) r r' := by
  unfold compress at h
  split at h
  next hnone =>
    cases h
    rw [hnone]
    exact ⟨rfl, (Stepped.same hr rfl).of_iff (by simp)⟩
  next encoding encoded hshrunk =>
    obtain ⟨r₁, h₁, h⟩ := Option.bind_eq_some_iff.mp h
    obtain ⟨r₂, h₂, h⟩ := Option.bind_eq_some_iff.mp h
    have hs₀ : SameFields r { r with body := .bytes encoded.1 encoded.2 } := ⟨hr, rfl, rfl⟩
    have hs₁ := hs₀.trans (SameFields.withHeader hs₀.wellFormed h₁ (by decide) (by decide))
    have hs₂ := hs₁.trans (SameFields.withHeader hs₁.wellFormed h₂ (by decide) (by decide))
    obtain ⟨hcookies, hstep⟩ := appendVary_spec (by decide) (by decide) hs₂.wellFormed h
    rw [accepted_eq] at hstep
    rw [hshrunk]
    exact ⟨hcookies.trans hs₂.cookies, (hs₂.stepped hr hstep).of_iff (by simp)⟩

end Compression

namespace HtmxWrapper

theorem HxHeader.name_other (header : HxHeader) :
    Fields.sameName true header.name "set-cookie".toList = false ∧
      Fields.sameName true header.name "vary".toList = false := by
  cases header <;> decide

theorem directives_spec {directives : List (HxHeader × Text)} {r r' : HtmxResponse}
    (hr : r.inner.WellFormed)
    (h : directives.foldlM (fun r directive => r.set directive.1 directive.2) r = some r') :
    SameFields r.inner r'.inner ∧ r'.vary = r.vary := by
  induction directives generalizing r with
  | nil =>
    cases h
    exact ⟨.refl hr, rfl⟩
  | cons directive directives ih =>
    rw [List.foldlM_cons] at h
    obtain ⟨r₁, h₁, h⟩ := Option.bind_eq_some_iff.mp h
    obtain ⟨inner, hinner, rfl⟩ := Option.map_eq_some_iff.mp h₁
    obtain ⟨hcookie, hvary⟩ := HxHeader.name_other directive.1
    have hs := SameFields.withHeader hr hinner hcookie hvary
    obtain ⟨hrest, hflag⟩ := ih hs.wellFormed h
    exact ⟨hs.trans hrest, hflag⟩

theorem wrap_spec {wrapper : HtmxWrapper} {r r' : Response} (hr : r.WellFormed)
    (h : wrapper.wrap r = some r') :
    r'.setCookies = r.setCookies ∧
      Stepped (if wrapper.varyOnRequest then [requested] else [])
        (wrapper.varyOnRequest = true → Appends requested r) r r' := by
  obtain ⟨r₁, h₁, h⟩ := Option.bind_eq_some_iff.mp h
  obtain ⟨hs, hflag⟩ := directives_spec hr h₁
  cases hvary : wrapper.varyOnRequest with
  | true =>
    rw [hvary] at h
    obtain ⟨hcookies, hstep⟩ := appendVary_spec (by decide) (by decide) hs.wellFormed h
    rw [requested_eq] at hstep
    exact ⟨hcookies.trans hs.cookies, (hs.stepped hr hstep).of_iff (by simp)⟩
  | false =>
    simp only [hvary, Bool.false_eq_true, ↓reduceIte, HtmxResponse.intoResponse, hflag,
      HtmxResponse.fromResponse] at h
    cases h
    exact ⟨hs.cookies, (Stepped.same hs.wellFormed hs.varyTokens).of_iff (by simp)⟩

end HtmxWrapper

namespace Layer

variable {env : LayerEnv S} {req : Request} {s : S}

/-- What each layer makes of the fields of a response it was given. -/
theorem finish_spec {layer : Layer} {r r' : Response} (hr : r.WellFormed)
    (h : layer.finish env req s r = some r') :
    Stepped (layer.listed env req r) (layer.SparesVary env req r) r r' ∧
      ∀ cookies, (∀ c ∈ cookies, c ∈ r.setCookies) →
        ((∀ c ∈ cookies, c ∈ r'.setCookies) ↔ layer.SparesCookies env req s cookies) := by
  cases layer with
  | tracking t =>
    simp only [finish, VisitorTracking.finish] at h
    split at h
    next cookie hcookie =>
      obtain ⟨hwell, hcookies, hvary⟩ := Response.withHeader_cookie hr h
      refine ⟨.same hwell hvary, fun cookies _ => ?_⟩
      simp [SparesCookies, hcookie, hcookies]
    next hnone =>
      cases h
      refine ⟨.same hr rfl, fun cookies hin => ?_⟩
      simpa [SparesCookies, hnone] using hin
  | cors c =>
    obtain ⟨hcookies, hstep⟩ := Cors.finish_spec hr h
    refine ⟨hstep, fun cookies hin => ?_⟩
    simpa [SparesCookies, hcookies] using hin
  | compression c =>
    obtain ⟨hcookies, hstep⟩ := Compression.compress_spec hr h
    refine ⟨hstep, fun cookies hin => ?_⟩
    simpa [SparesCookies, hcookies] using hin
  | htmx wrapper =>
    obtain ⟨hcookies, hstep⟩ := HtmxWrapper.wrap_spec hr h
    refine ⟨hstep, fun cookies hin => ?_⟩
    simpa [SparesCookies, hcookies] using hin

end Layer

namespace Cors

/-- The answer to a preflight lists the origin where it depends on it. -/
theorem answer_spec {cors : Cors} {req : Request} {r : Response} (h : cors.answer req = some r) :
    r.WellFormed ∧
      r.varyTokens = if (cors.allowed req).isSome then ["origin".toList] else [] := by
  unfold answer at h
  split at h
  next origin horigin =>
    obtain ⟨r₁, h₁, h⟩ := Option.bind_eq_some_iff.mp h
    obtain ⟨r₂, h₂, h⟩ := Option.bind_eq_some_iff.mp h
    obtain ⟨r₃, h₃, h⟩ := Option.bind_eq_some_iff.mp h
    obtain ⟨hwell, -, hvary⟩ := stampCommon_spec (Response.wellFormed_new 204) h₁
    have hs₂ := SameFields.withHeader hwell h₂ (by decide) (by decide)
    have hs₃ := hs₂.trans (SameFields.withHeaderIf hs₂.wellFormed h₃ (by decide) (by decide))
    have hs : SameFields r₁ r := by
      split at h
      next => exact hs₃.trans (SameFields.withHeader hs₃.wellFormed h (by decide) (by decide))
      next =>
        cases h
        exact hs₃
    rw [hs.varyTokens, hvary, horigin]
    exact ⟨hs.wellFormed, rfl⟩
  next hnone =>
    cases h
    rw [hnone]
    exact ⟨Response.wellFormed_new 204, rfl⟩

end Cors

variable {env : LayerEnv S} {terminal : Request → S → Outcome × S} {layer : Layer}
  {rest : List Layer} {req : Request} {s : S}

theorem Layer.answer_spec (env : LayerEnv S) {r : Response} (response : Response)
    (h : layer.answer req = some (.ok r)) :
    r.WellFormed ∧ r.varyTokens = layer.listed env req response := by
  cases layer with
  | cors c =>
    simp only [answer] at h
    split at h
    next => exact Cors.answer_spec (Outcome.of_eq_ok (Option.some.inj h))
    next => cases h
  | _ => cases h

theorem runLayers_answer {outcome : Outcome} (h : layer.answer req = some outcome) :
    runLayers env terminal (layer :: rest) req s = outcome := by
  simp only [runLayers, List.map_cons, runNext, Layer.middleware, h]

theorem runLayers_next (h : layer.answer req = none) :
    runLayers env terminal (layer :: rest) req s =
      (runLayers env terminal rest req (layer.enter env req s)).bind fun response =>
        Outcome.of (layer.finish env req s response) := by
  simp only [runLayers, List.map_cons, runNext, Layer.middleware, h]

/-- A response that leaves a layer that runs the rest, and the response it was made from. -/
theorem runLayers_cons_ok {r' : Response} (h : layer.answer req = none)
    (hrun : runLayers env terminal (layer :: rest) req s = .ok r') :
    ∃ r, runLayers env terminal rest req (layer.enter env req s) = .ok r ∧
      layer.finish env req s r = some r' := by
  rw [runLayers_next h] at hrun
  obtain ⟨r, hr, hfinish⟩ := bind_eq_ok_iff.mp hrun
  exact ⟨r, hr, Outcome.of_eq_ok hfinish⟩

theorem owedTokens_next (h : layer.answer req = none) {r : Response}
    (hr : runLayers env terminal rest req (layer.enter env req s) = .ok r) :
    owedTokens env terminal (layer :: rest) req s =
      owedTokens env terminal rest req (layer.enter env req s) ++ layer.listed env req r := by
  simp only [owedTokens, h, hr]

theorem owedCookies_next (h : layer.answer req = none) :
    owedCookies env terminal (layer :: rest) req s =
      owedCookies env terminal rest req (layer.enter env req s) := by
  simp only [owedCookies, h]

/-- How a request goes on through one more layer. -/
theorem arrive_snoc {outer : List Layer} {req' : Request} {s' : S}
    (h : arrive (outer.map (Layer.middleware env)) req s = some (req', s'))
    (hanswer : layer.answer req' = none) :
    arrive ((outer ++ [layer]).map (Layer.middleware env)) req s =
      some (req', layer.enter env req' s') := by
  induction outer generalizing s with
  | nil =>
    cases h
    simp [arrive, Layer.middleware, hanswer]
  | cons first rest ih =>
    simp only [List.cons_append, List.map_cons, arrive, Layer.middleware] at h ⊢
    cases hfirst : first.answer req with
    | none =>
      rw [hfirst] at h
      exact ih h
    | some outcome =>
      rw [hfirst] at h
      cases h

section

variable (hterminal : ∀ req s r, (terminal req s).1 = .ok r → r.WellFormed)
include hterminal

/-- No response has a name in `Vary` that it does not owe. -/
theorem runLayers_spec {stack : List Layer} {r : Response}
    (hrun : runLayers env terminal stack req s = .ok r) :
    r.WellFormed ∧ ∀ t ∈ r.varyTokens, t ∈ owedTokens env terminal stack req s := by
  induction stack generalizing s r with
  | nil =>
    refine ⟨hterminal req s r hrun, fun t ht => ?_⟩
    have hout : (terminal req s).1 = .ok r := hrun
    rw [owedTokens, hout]
    exact ht
  | cons layer rest ih =>
    cases hanswer : layer.answer req with
    | some outcome =>
      rw [runLayers_answer hanswer] at hrun
      rw [hrun] at hanswer
      obtain ⟨hwell, hvary⟩ := Layer.answer_spec env (.new 204) hanswer
      refine ⟨hwell, fun t ht => ?_⟩
      rw [hvary] at ht
      simpa only [owedTokens, hanswer] using ht
    | none =>
      obtain ⟨r₀, hr₀, hfinish⟩ := runLayers_cons_ok hanswer hrun
      obtain ⟨hwell, hsubset⟩ := ih hr₀
      obtain ⟨hstep, -⟩ := Layer.finish_spec hwell hfinish
      refine ⟨hstep.wellFormed, fun t ht => ?_⟩
      rw [owedTokens_next hanswer hr₀]
      exact List.mem_append.mpr ((List.mem_append.mp (hstep.subset t ht)).imp_left (hsubset t))

/-- Behind a stack that carries what it owes, a layer carries it on exactly if its step spares it. -/
theorem stackCarries_cons_iff (hanswer : layer.answer req = none)
    (hrest : StackCarries env terminal rest req (layer.enter env req s)) :
    StackCarries env terminal (layer :: rest) req s ↔ layer.Spares env terminal rest req s := by
  -- what the response before the step lists is what is owed for it
  have hsame : ∀ r, runLayers env terminal rest req (layer.enter env req s) = .ok r →
      ∀ t, t ∈ r.varyTokens ↔ t ∈ owedTokens env terminal rest req (layer.enter env req s) :=
    fun r hr t => ⟨(runLayers_spec hterminal hr).2 t, (hrest r hr).vary t⟩
  constructor
  · intro hcarries _ r hr hsome
    obtain ⟨r', hfinish⟩ := Option.isSome_iff_exists.mp hsome
    have hrun : runLayers env terminal (layer :: rest) req s = .ok r' := by
      rw [runLayers_next hanswer, hr]
      show Outcome.of (layer.finish env req s r) = .ok r'
      rw [hfinish]
      rfl
    obtain ⟨hcookies, hvary⟩ := hcarries r' hrun
    rw [owedCookies_next hanswer] at hcookies
    rw [owedTokens_next hanswer hr] at hvary
    obtain ⟨hstep, hset⟩ := Layer.finish_spec (runLayers_spec hterminal hr).1 hfinish
    refine ⟨(hset _ (hrest r hr).cookies).mp hcookies, hstep.kept.mp fun t ht => hvary t ?_⟩
    exact List.mem_append.mpr ((List.mem_append.mp ht).imp_left (hsame r hr t).mp)
  · intro hspares r' hrun
    obtain ⟨r, hr, hfinish⟩ := runLayers_cons_ok hanswer hrun
    obtain ⟨hcookies, hvary⟩ := hspares hanswer r hr (by rw [hfinish]; rfl)
    obtain ⟨hstep, hset⟩ := Layer.finish_spec (runLayers_spec hterminal hr).1 hfinish
    constructor
    · rw [owedCookies_next hanswer]
      exact (hset _ (hrest r hr).cookies).mpr hcookies
    · rw [owedTokens_next hanswer hr]
      refine fun t ht => hstep.kept.mpr hvary t ?_
      exact List.mem_append.mpr ((List.mem_append.mp ht).imp_left (hsame r hr t).mpr)

end

namespace Layer

def sessionCookie : Text := "sid=1".toList

/-- A handler that starts a session. -/
def startSession : Request → Unit → Outcome × Unit := fun _ s =>
  (.of ((Response.new 200).withHeader "set-cookie".toList sessionCookie), s)

theorem startSession_wellFormed (req : Request) (s : Unit) (r : Response)
    (h : (startSession req s).1 = .ok r) : r.WellFormed := by
  have hset : (Response.new 200).withHeader "set-cookie".toList sessionCookie = some r :=
    Outcome.of_eq_ok h
  exact (Response.withHeader_cookie (Response.wellFormed_new 200) hset).1

def plainEnv : LayerEnv Unit where
  parseIp _ := none
  codec _ data := data
  newVisitorId s := ("5f".toList, s)
  setMeta _ s := s

/-- A request for `/` with one header. -/
def getWith (name value : Text) : Request where
  method := "GET".toList
  path := ['/']
  version := .http11
  headers := (Fields.push {} name value).getD {}
  query := {}
  pathParams := []
  body := []
  bodySpool := none
  remoteAddr := none

end Layer

end Kernway
