import Kernway.FieldValues
import Kernway.SecurityGate

namespace Kernway

namespace Compress

inductive Encoding
  | identity
  | gzip
  | deflate
  | br
  deriving DecidableEq

def Encoding.asStr : Encoding → Text
  | identity => "identity".toList
  | gzip => "gzip".toList
  | deflate => "deflate".toList
  | br => "br".toList

/-- `encode`. The codecs are those of other libraries. -/
def encode (codec : Encoding → Bytes → Bytes) (data : Bytes) : Encoding → Bytes
  | .identity => data
  | encoding => codec encoding data

def isCompressible (contentType : Text) : Bool :=
  let base := trim ((cutAt ';' contentType).getD (contentType, [])).1
  "text/".toList.isPrefixOf base ||
    ["application/json".toList, "application/xml".toList, "application/javascript".toList,
      "application/manifest+json".toList, "application/wasm".toList,
      "application/rss+xml".toList, "application/atom+xml".toList, "image/svg+xml".toList,
      "font/ttf".toList, "font/otf".toList].contains base

/-- Whether a text reads as the float that is no number. -/
def isNan (s : Text) : Bool :=
  eqIgnoreAsciiCase (match s with
    | '-' :: rest => rest
    | '+' :: rest => rest
    | rest => rest) "nan".toList

/-- `parse_q(params) <= 0.0`; a quality that does not parse is 1. -/
def refused (params : Text) : Bool :=
  ((params.splitOn ';').findSome? fun p => do
    let p := trim p
    let v ← ("q=".toList.isPrefixOf? p).or ("Q=".toList.isPrefixOf? p)
    some (((positiveF32 (trim v)).map fun positive => !positive && !isNan (trim v)).getD false)).getD
      false

/-- The name of an offered encoding, unless it is refused. -/
def offered (part : Text) : Option Text :=
  match cutAt ';' (trim part) with
  | none => some (trim part)
  | some (token, params) => if refused params then none else some (trim token)

def negotiate (acceptEncoding : Text) : Encoding :=
  let tokens := ((acceptEncoding.splitOn ',').filterMap offered).map toAsciiLowercase
  if tokens.contains "br".toList || tokens.contains ['*'] then .br
  else if tokens.contains "gzip".toList || tokens.contains "x-gzip".toList then .gzip
  else if tokens.contains "deflate".toList then .deflate
  else .identity

end Compress

/-- An insertion under a condition; `none`, here and below, is the panic of an insertion. -/
def Response.withHeaderIf (response : Response) (condition : Bool) (name value : Text) :
    Option Response :=
  if condition then response.withHeader name value else some response

inductive Origins
  | any
  | list (origins : List Text)

inductive AllowHeaders
  | mirrorRequest
  | list (headers : List Text)

structure Cors where
  origins : Origins
  methods : List Text
  headers : AllowHeaders
  exposed : List Text
  credentials : Bool
  maxAge : Option UInt64

namespace Cors

def allowOriginValue (cors : Cors) (origin : Text) : Option Text :=
  match cors.origins with
  | .any => some (if cors.credentials then origin else ['*'])
  | .list origins => if origins.contains origin then some origin else none

def stampCommon (cors : Cors) (resp : Response) (allowOrigin : Text) : Option Response := do
  let resp ← resp.withHeader "access-control-allow-origin".toList allowOrigin
  let resp ← resp.withHeaderIf cors.credentials "access-control-allow-credentials".toList
    "true".toList
  resp.withHeader "vary".toList "Origin".toList

def preflight (cors : Cors) (req : Request) (allowOrigin : Text) : Option Response := do
  let resp ← cors.stampCommon (Response.new 204) allowOrigin
  let resp ← resp.withHeader "access-control-allow-methods".toList
    (", ".toList.intercalate cors.methods)
  let allowHeaders := match cors.headers with
    | .list headers => ", ".toList.intercalate headers
    | .mirrorRequest => (req.header "access-control-request-headers".toList).getD []
  let resp ← resp.withHeaderIf (allowHeaders ≠ []) "access-control-allow-headers".toList
    allowHeaders
  match cors.maxAge with
  | some secs => resp.withHeader "access-control-max-age".toList (decimal secs)
  | none => some resp

/-- What an actual response says about its origin. -/
def allowed (cors : Cors) (req : Request) : Option Text :=
  (req.header "origin".toList).bind cors.allowOriginValue

def isPreflight (req : Request) : Bool :=
  eqIgnoreAsciiCase req.method "OPTIONS".toList &&
    (req.header "access-control-request-method".toList).isSome

def finish (cors : Cors) (req : Request) (response : Response) : Option Response :=
  match cors.allowed req with
  | none => some response
  | some origin => do
    let response ← cors.stampCommon response origin
    response.withHeaderIf (cors.exposed ≠ []) "access-control-expose-headers".toList
      (", ".toList.intercalate cors.exposed)

/-- The answer to a preflight. -/
def answer (cors : Cors) (req : Request) : Option Response :=
  match cors.allowed req with
  | some origin => cors.preflight req origin
  | none => some (Response.new 204)

end Cors

/-- What `VisitorTracking` puts into the scope. -/
structure RequestMeta where
  visitorId : Text
  ip : Option IpAddr
  userAgent : Option Text
  path : Text
  method : Text

/-- What the layers take from the libraries and the program around them. -/
structure LayerEnv (S : Type) where
  parseIp : Text → Option IpAddr
  codec : Compress.Encoding → Bytes → Bytes
  newVisitorId : S → Text × S
  setMeta : RequestMeta → S → S

structure VisitorTracking where
  trusted : List IpAddr

def visitorCookieName : Text := "kw_visitor".toList

def visitorCookie (id : Text) : Text :=
  visitorCookieName ++ '=' :: id ++ "; Path=/; HttpOnly; SameSite=Lax; Max-Age=31536000".toList

def visitorFromCookie (cookieHeader : Text) : Option Text :=
  (cookieHeader.splitOn ';').findSome? fun pair => do
    let (name, value) ← cutAt '=' pair
    if trim name = visitorCookieName then some (trim value) else none

variable {S : Type}

namespace VisitorTracking

def existing (req : Request) : Option Text :=
  (req.header "cookie".toList).bind visitorFromCookie

def visitor (env : LayerEnv S) (req : Request) (s : S) : Text × S :=
  match existing req with
  | some id => (id, s)
  | none => env.newVisitorId s

/-- The cookie of a first visit. -/
def newCookie (env : LayerEnv S) (req : Request) (s : S) : Option Text :=
  if (existing req).isNone then some (visitorCookie (visitor env req s).1) else none

/-- The scope behind this layer. -/
def enter (env : LayerEnv S) (tracking : VisitorTracking) (req : Request) (s : S) : S :=
  env.setMeta ⟨(visitor env req s).1,
    clientIp env.parseIp req.remoteAddr (req.header "x-forwarded-for".toList) tracking.trusted,
    req.header "user-agent".toList, req.path, req.method⟩ (visitor env req s).2

def finish (env : LayerEnv S) (req : Request) (s : S) (response : Response) : Option Response :=
  match newCookie env req s with
  | some cookie => response.withHeader "set-cookie".toList cookie
  | none => some response

end VisitorTracking

/-- Add a name to the last `Vary` value, unless it is somewhere in it. -/
def appendVary (token : Text) (response : Response) : Option Response :=
  match response.headers.get "vary".toList with
  | some existing =>
    if containsText (toAsciiLowercase existing) (toAsciiLowercase token) then some response
    else response.withHeader "vary".toList (existing ++ ", ".toList ++ token)
  | none => response.withHeader "vary".toList token

structure Compression where
  minSize : Nat

namespace Compression

def addVary (response : Response) : Option Response := appendVary "Accept-Encoding".toList response

theorem fits_of_shorter {bytes encoded : Bytes} (h : ¬ bytes.length ≤ encoded.length)
    (fits : bytes.length < 2 ^ 64) : encoded.length < 2 ^ 64 := by
  omega

/-- The smaller body of a response that is worth compressing. -/
def shrunk (codec : Compress.Encoding → Bytes → Bytes) (minSize : Nat) (accept : Text)
    (response : Response) : Option (Compress.Encoding × { bytes : Bytes // bytes.length < 2 ^ 64 }) :=
  match response.body with
  | .bytes bytes fits =>
    if bytes.length < minSize then none
    else if (response.headers.get "content-encoding".toList).isSome then none
    else if !Compress.isCompressible ((response.headers.get "content-type".toList).getD []) then
      none
    else if Compress.negotiate accept = .identity then none
    else
      let encoded := Compress.encode codec bytes (Compress.negotiate accept)
      if h : bytes.length ≤ encoded.length then none
      else some (Compress.negotiate accept, ⟨encoded, fits_of_shorter h fits⟩)
  | _ => none

def compress (codec : Compress.Encoding → Bytes → Bytes) (response : Response) (accept : Text)
    (minSize : Nat) : Option Response :=
  match shrunk codec minSize accept response with
  | none => some response
  | some (encoding, encoded) => do
    let response ← { response with body := .bytes encoded.1 encoded.2 }.withHeader
      "content-encoding".toList encoding.asStr
    let response ← response.withHeader "content-length".toList (Nat.toDigits 10 encoded.1.length)
    addVary response

def accept (req : Request) : Text := (req.header "accept-encoding".toList).getD []

end Compression

/-- The headers that the methods of `HtmxResponse` set. -/
inductive HxHeader
  | trigger
  | triggerAfterSettle
  | triggerAfterSwap
  | redirect
  | location
  | refresh
  | pushUrl
  | replaceUrl
  | retarget
  | reswap
  | reselect
  deriving DecidableEq

def HxHeader.name : HxHeader → Text
  | trigger => "HX-Trigger".toList
  | triggerAfterSettle => "HX-Trigger-After-Settle".toList
  | triggerAfterSwap => "HX-Trigger-After-Swap".toList
  | redirect => "HX-Redirect".toList
  | location => "HX-Location".toList
  | refresh => "HX-Refresh".toList
  | pushUrl => "HX-Push-Url".toList
  | replaceUrl => "HX-Replace-Url".toList
  | retarget => "HX-Retarget".toList
  | reswap => "HX-Reswap".toList
  | reselect => "HX-Reselect".toList

structure HtmxResponse where
  inner : Response
  vary : Bool

namespace HtmxResponse

def fromResponse (inner : Response) : HtmxResponse := ⟨inner, false⟩

def set (r : HtmxResponse) (header : HxHeader) (value : Text) : Option HtmxResponse :=
  (r.inner.withHeader header.name value).map fun inner => { r with inner }

def varyOnRequest (r : HtmxResponse) : HtmxResponse := { r with vary := true }

def intoResponse (r : HtmxResponse) : Option Response :=
  if r.vary then appendVary "HX-Request".toList r.inner else some r.inner

end HtmxResponse

/-- A use of the wrapper: the headers it sets and whether it marks the response. -/
structure HtmxWrapper where
  directives : List (HxHeader × Text)
  varyOnRequest : Bool

def HtmxWrapper.wrap (wrapper : HtmxWrapper) (response : Response) : Option Response := do
  let r ← wrapper.directives.foldlM (fun r directive => r.set directive.1 directive.2)
    (HtmxResponse.fromResponse response)
  (if wrapper.varyOnRequest then r.varyOnRequest else r).intoResponse

inductive Layer
  | tracking (tracking : VisitorTracking)
  | cors (cors : Cors)
  | compression (compression : Compression)
  | htmx (wrapper : HtmxWrapper)

namespace Layer

/-- What a layer makes of the response of the layers behind it. -/
def finish (env : LayerEnv S) (req : Request) (s : S) : Layer → Response → Option Response
  | tracking _, response => VisitorTracking.finish env req s response
  | cors c, response => c.finish req response
  | compression c, response =>
    Compression.compress env.codec response (Compression.accept req) c.minSize
  | htmx wrapper, response => wrapper.wrap response

def enter (env : LayerEnv S) (req : Request) (s : S) : Layer → S
  | tracking t => t.enter env req s
  | _ => s

/-- The answer of a layer that does not run the rest. -/
def answer (req : Request) : Layer → Option Outcome
  | cors c => if Cors.isPreflight req then some (.of (c.answer req)) else none
  | _ => none

/-- `handle`. A panic behind a layer goes through it. -/
def middleware (env : LayerEnv S) (layer : Layer) : Middleware S where
  handle req s :=
    match layer.answer req with
    | some outcome => .answer outcome s
    | none => .next req (layer.enter env req s) fun outcome s' =>
      (outcome.bind fun response => Outcome.of (layer.finish env req s response), s')

end Layer

/-- The response that a stack of layers, the outermost first, makes around a handler. -/
def runLayers (env : LayerEnv S) (terminal : Request → S → Outcome × S) (stack : List Layer)
    (req : Request) (s : S) : Outcome :=
  (runNext terminal (stack.map (Layer.middleware env)) req s).1

end Kernway
