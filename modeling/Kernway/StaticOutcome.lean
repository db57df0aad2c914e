import Kernway.HttpRequest
import Kernway.HttpResponse
import Kernway.Router
import Kernway.StaticFiles

namespace Kernway

open UnixPath

/-- The names that a path is made of. -/
def components (path : Bytes) : List Bytes :=
  (path.splitOn 47).filter fun name => name ≠ [] ∧ name ≠ [46]

/-- `Path::starts_with`, name by name. -/
def startsWith (path base : Bytes) : Bool := (components base).isPrefixOf (components path)

/-- `Path::extension`: what stands behind the last dot of the last name, unless nothing stands
before it. -/
def extension (path : Bytes) : Option Bytes := do
  let name ← (components path).getLast?
  if name = [46, 46] then none
  else
    let (after, before) ← cutAt 46 name.reverse
    if before = [] then none else some after.reverse

/-- The rows of `mime_for`. -/
def mimeTypes : List (List Text × Text) :=
  [(["html".toList, "htm".toList], "text/html; charset=utf-8".toList),
    (["css".toList], "text/css; charset=utf-8".toList),
    (["js".toList, "mjs".toList], "text/javascript; charset=utf-8".toList),
    (["json".toList], "application/json; charset=utf-8".toList),
    (["svg".toList], "image/svg+xml".toList), (["png".toList], "image/png".toList),
    (["jpg".toList, "jpeg".toList], "image/jpeg".toList), (["gif".toList], "image/gif".toList),
    (["webp".toList], "image/webp".toList), (["ico".toList], "image/x-icon".toList),
    (["woff2".toList], "font/woff2".toList), (["woff".toList], "font/woff".toList),
    (["ttf".toList], "font/ttf".toList), (["txt".toList], "text/plain; charset=utf-8".toList),
    (["xml".toList], "application/xml; charset=utf-8".toList),
    (["wasm".toList], "application/wasm".toList), (["pdf".toList], "application/pdf".toList),
    (["mp3".toList], "audio/mpeg".toList),
    (["m4a".toList, "m4b".toList, "aac".toList], "audio/mp4".toList),
    (["oga".toList, "ogg".toList], "audio/ogg".toList), (["opus".toList], "audio/opus".toList),
    (["wav".toList], "audio/wav".toList), (["flac".toList], "audio/flac".toList),
    (["mp4".toList, "m4v".toList], "video/mp4".toList), (["webm".toList], "video/webm".toList),
    (["mov".toList], "video/quicktime".toList)]

def mimeFor (path : Bytes) : Text :=
  let ext := ((extension path).bind decodeUtf8).map toAsciiLowercase
  ((mimeTypes.find? fun row => ext.any row.1.contains).map Prod.snd).getD
    "application/octet-stream".toList

inductive Encoding
  | brotli
  | gzip

namespace Encoding

def preference : List Encoding := [brotli, gzip]

def token : Encoding → Text
  | brotli => "br".toList
  | gzip => "gzip".toList

def extension : Encoding → Text
  | brotli => ".br".toList
  | gzip => ".gz".toList

end Encoding

/-- The digits of a number before and behind its point, and its power of ten. -/
def decimalParts (s : Text) : Option (Text × Text × Int) := do
  let (mantissa, power) ← match cutAt 'e' (toAsciiLowercase s) with
    | none => some (s, 0)
    | some (mantissa, e) =>
      let (negative, digits) := match e with
        | '-' :: digits => (true, digits)
        | '+' :: digits => (false, digits)
        | digits => (false, digits)
      if digits ≠ [] ∧ digits.all isAsciiDigit then
        some (mantissa, if negative then -(digitsValue digits : Int) else digitsValue digits)
      else none
  let (whole, fraction) := (cutAt '.' mantissa).getD (mantissa, [])
  if whole ++ fraction ≠ [] ∧ (whole ++ fraction).all isAsciiDigit then some (whole, fraction, power)
  else none

/-- Whether the `f32` that a text parses to is above zero: half of the least such number rounds to
zero. -/
def positiveF32 (s : Text) : Option Bool :=
  let (negative, rest) := match s with
    | '-' :: rest => (true, rest)
    | '+' :: rest => (false, rest)
    | rest => (false, rest)
  if eqIgnoreAsciiCase rest "nan".toList then some false
  else if eqIgnoreAsciiCase rest "inf".toList ∨ eqIgnoreAsciiCase rest "infinity".toList then
    some !negative
  else (decimalParts rest).map fun (whole, fraction, power) =>
    let power := power - fraction.length
    !negative && decide
      (10 ^ (-power).toNat < digitsValue (whole ++ fraction) * 10 ^ power.toNat * 2 ^ 150)

/-- The name in one piece of `Accept-Encoding`, and whether its quality is above zero. -/
def splitQvalue (part : Text) : Text × Bool :=
  match cutAt ';' part with
  | none => (part, true)
  | some (name, params) =>
    let q := (params.splitOn ';').findSome? fun p => do
      let p := trim p
      let v ← ("q=".toList.isPrefixOf? p).or ("Q=".toList.isPrefixOf? p)
      positiveF32 (trim v)
    (trim name, q.getD true)

def isAccepted (header token : Text) : Bool :=
  let parts := ((header.splitOn ',').map trim).filter (· ≠ [])
  let qs := parts.foldl (fun (exact, wildcard) part =>
    let (name, q) := splitQvalue part
    if eqIgnoreAsciiCase name token then (some q, wildcard)
    else if name = ['*'] then (exact, some q)
    else (exact, wildcard)) ((none, none) : Option Bool × Option Bool)
  (qs.1.or qs.2).getD false

def acceptedEncodings (acceptEncoding : Text) : List Encoding :=
  Encoding.preference.filter fun e => isAccepted acceptEncoding e.token

def isCompressible (mime : Text) : Bool :=
  let base := trim ((cutAt ';' mime).getD (mime, [])).1
  "text/".toList.isPrefixOf base ||
    ["application/json".toList, "application/xml".toList, "application/javascript".toList,
      "application/manifest+json".toList, "application/wasm".toList, "image/svg+xml".toList,
      "font/ttf".toList, "font/otf".toList].contains base

def etag (len : UInt64) (mtimeNanos : Nat) : Text :=
  '"' :: Nat.toDigits 16 len.toNat ++ '-' :: Nat.toDigits 16 mtimeNanos ++ ['"']

def stripWeak (validator : Text) : Text := ("W/".toList.isPrefixOf? validator).getD validator

def etagMatches (ifNoneMatch etag : Text) : Bool :=
  let inm := trim ifNoneMatch
  inm == ['*'] || (inm.splitOn ',').any fun candidate =>
    stripWeak (trim candidate) == stripWeak etag

/-- What the system tells about a file. A time before the epoch, or none, counts as the epoch. -/
structure Metadata where
  isFile : Bool
  len : UInt64
  mtimeNanos : Nat

/-- The file system as the blocking pool sees it. -/
structure FileSystem where
  canonicalize : Bytes → Option Bytes
  metadata : Bytes → Option Metadata

inductive StaticOutcome
  | notModified (etag : Text) (varyEncoding : Bool)
  | file (path : Bytes) (len : UInt64) (etag mime : Text) (encoding : Option Text)
    (varyEncoding : Bool)

def Response.new (status : UInt16) : Response := ⟨status, {}, .empty⟩

/-- `headers.insert`, `none` where it panics. -/
def Response.withHeader (response : Response) (name value : Text) : Option Response :=
  (response.headers.insert name value).map fun headers => { response with headers }

def Response.varied (response : Response) (varyEncoding : Bool) : Option Response :=
  if varyEncoding then response.withHeader "vary".toList "Accept-Encoding".toList
  else some response

/-- `into_response`, `none` where it panics. -/
def StaticOutcome.intoResponse (cacheControl : Text) : StaticOutcome → Option Response
  | notModified etag varyEncoding => do
    let r ← (Response.new 304).withHeader "etag".toList etag
    let r ← r.withHeader "cache-control".toList cacheControl
    r.varied varyEncoding
  | file path len etag mime encoding varyEncoding => do
    let r ← (Response.new 200).withHeader "content-type".toList mime
    let r := { r with body := .file path len none }
    let r ← r.withHeader "etag".toList etag
    let r ← r.withHeader "cache-control".toList cacheControl
    let r ← r.withHeader "x-content-type-options".toList "nosniff".toList
    let r ← r.withHeader "accept-ranges".toList "bytes".toList
    let r ← match encoding with
      | some enc => r.withHeader "content-encoding".toList enc
      | none => some r
    r.varied varyEncoding

/-- The precompressed file that is served in the place of another one. -/
def findVariant (disk : FileSystem) (canon canonRoot : Bytes) :
    List Encoding → Option (Bytes × Metadata × Encoding)
  | [] => none
  | enc :: rest =>
    match disk.canonicalize (canon ++ encodeUtf8 enc.extension) with
    | none => findVariant disk canon canonRoot rest
    | some vc =>
      if ¬ startsWith vc canonRoot then findVariant disk canon canonRoot rest
      else match disk.metadata vc with
        | none => findVariant disk canon canonRoot rest
        | some vm =>
          if vm.isFile then some (vc, vm, enc) else findVariant disk canon canonRoot rest

def loadStatic (disk : FileSystem) (root path : Bytes) (ifNoneMatch acceptEncoding : Option Text) :
    Option StaticOutcome := do
  let canon ← disk.canonicalize path
  let canonRoot ← disk.canonicalize root
  if ¬ startsWith canon canonRoot then none
  else
    let «meta» ← disk.metadata canon
    if ¬ «meta».isFile then none
    else
      let mime := mimeFor path
      let varyEncoding := acceptEncoding.isSome && isCompressible mime
      let variant := if varyEncoding then
          acceptEncoding.bind fun ae => findVariant disk canon canonRoot (acceptedEncodings ae)
        else none
      let (served, servedMeta, encoding) := match variant with
        | some (vc, vm, enc) => (vc, vm, some enc.token)
        | none => (canon, «meta», none)
      let etag := etag servedMeta.len servedMeta.mtimeNanos
      if ifNoneMatch.any fun inm => etagMatches inm etag then
        some (.notModified etag varyEncoding)
      else some (.file served servedMeta.len etag mime encoding varyEncoding)

inductive RangeSpec
  | full
  | satisfiable (start stop : Nat)
  | unsatisfiable

/-- The start and the last place of a range, where it is to be read as one. -/
def rangeBounds (a b : Text) (len : Nat) : Option (Option (Nat × Nat)) :=
  if a = [] then
    match parseUsize b with
    | none => none
    | some n =>
      if n = 0 then some none
      else if n ≥ len then some (some (0, len - 1))
      else some (some (len - n, len - 1))
  else match parseUsize a with
    | none => none
    | some start =>
      if b = [] then some (some (start, len - 1))
      else match parseUsize b with
        | none => none
        | some stop => some (some (start, min stop (len - 1)))

def parseRange (header : Text) (len : Nat) : RangeSpec :=
  match "bytes=".toList.isPrefixOf? (trim header) with
  | none => .full
  | some spec =>
    let spec := trim spec
    if ',' ∈ spec then .full
    else match cutAt '-' spec with
      | none => .full
      | some (a, b) =>
        match rangeBounds a b len with
        | none => .full
        | some none => .unsatisfiable
        | some (some (start, last)) =>
          if len = 0 ∨ start ≥ len ∨ start > last then .unsatisfiable
          else .satisfiable start (last + 1)

def applyRange (response : Response) (header : Text) (len : UInt64) : Option Response :=
  match parseRange header len.toNat with
  | .full => some response
  | .satisfiable start stop => do
    let range := "bytes ".toList ++ Nat.toDigits 10 start ++ '-' :: Nat.toDigits 10 (stop - 1) ++
      '/' :: decimal len
    let r ← { response with status := 206 }.withHeader "content-range".toList range
    return match r.body with
      | .file path len _ =>
        { r with body := .file path len (some (UInt64.ofNat start, UInt64.ofNat stop)) }
      | _ => r
  | .unsatisfiable => do
    let r ← { response with status := 416 }.withHeader "content-range".toList
      ("bytes */".toList ++ decimal len)
    return { r with body := .empty }

/-- The static root of an app, with its flag for precompressed files. -/
structure StaticRoot extends StaticFiles where
  precompressed : Bool

def Request.header (request : Request) (name : Text) : Option Text := request.headers.get name

/-- The length of the file that a response sends. -/
def Response.fileLen (response : Response) : Option UInt64 :=
  match response.body with
  | .file _ len _ => some len
  | _ => none

/-- `try_static`: `none` where the router is left the request. The inner `none` is a panic. -/
def tryStatic {H : Type} (disk : FileSystem) (staticFiles : Option StaticRoot) (router : Router H)
    (request : Request) : Option (Option Response) := do
  let sf ← staticFiles
  if ¬ (eqIgnoreAsciiCase request.method "GET".toList ∨
      eqIgnoreAsciiCase request.method "HEAD".toList) then none
  else if (router.find request.method request.path).isSome then none
  else match sf.resolve request.path with
    | .error _ => none
    | .ok path =>
      let acceptEncoding := if sf.precompressed then
          some ((request.header "accept-encoding".toList).getD [])
        else none
      let outcome ← loadStatic disk sf.root path (request.header "if-none-match".toList)
        acceptEncoding
      some do
        let response ← outcome.intoResponse "no-cache".toList
        match response.fileLen, request.header "range".toList with
        | some len, some range => applyRange response range len
        | _, _ => some response

theorem withHeader_status {response response' : Response} {name value : Text}
    (h : response.withHeader name value = some response') : response'.status = response.status := by
  obtain ⟨headers, _, rfl⟩ := Option.map_eq_some_iff.mp h
  rfl

theorem varied_status {response response' : Response} {varyEncoding : Bool}
    (h : response.varied varyEncoding = some response') : response'.status = response.status := by
  unfold Response.varied at h
  split at h
  next => exact withHeader_status h
  next =>
    cases h
    rfl

theorem intoResponse_status {cacheControl : Text} {outcome : StaticOutcome} {response : Response}
    (h : outcome.intoResponse cacheControl = some response) :
    response.status = 304 ∨ response.status = 200 := by
  cases outcome with
  | notModified etag varyEncoding =>
    simp only [StaticOutcome.intoResponse, Option.bind_eq_bind, Option.bind_eq_some_iff] at h
    obtain ⟨r₁, h₁, r₂, h₂, hlast⟩ := h
    left
    rw [varied_status hlast, withHeader_status h₂, withHeader_status h₁]
    rfl
  | file path len etag mime encoding varyEncoding =>
    simp only [StaticOutcome.intoResponse, Option.bind_eq_bind, Option.bind_eq_some_iff] at h
    obtain ⟨r₁, h₁, r₂, h₂, r₃, h₃, r₄, h₄, r₅, h₅, hlast⟩ := h
    have hstatus : r₅.status = 200 := by
      rw [withHeader_status h₅, withHeader_status h₄, withHeader_status h₃, withHeader_status h₂]
      exact withHeader_status h₁
    right
    cases encoding with
    | none => rw [varied_status (by exact hlast), hstatus]
    | some enc =>
      obtain ⟨r₆, h₆, hlast⟩ := Option.bind_eq_some_iff.mp (by exact hlast)
      rw [varied_status hlast, withHeader_status h₆, hstatus]

theorem applyRange_status {response response' : Response} {header : Text} {len : UInt64}
    (h : applyRange response header len = some response') :
    response'.status = response.status ∨ response'.status = 206 ∨ response'.status = 416 := by
  unfold applyRange at h
  split at h
  next =>
    cases h
    exact .inl rfl
  next =>
    simp only [Option.bind_eq_bind, Option.bind_eq_some_iff] at h
    obtain ⟨r, hr, hlast⟩ := h
    right
    left
    cases hlast
    have hstatus : r.status = 206 := withHeader_status hr
    split <;> exact hstatus
  next =>
    simp only [Option.bind_eq_bind, Option.bind_eq_some_iff] at h
    obtain ⟨r, hr, hlast⟩ := h
    cases hlast
    exact .inr (.inr (withHeader_status hr))

/-- The answers of the static root are whole files, parts of files and the refusals of these. -/
theorem tryStatic_status {H : Type} {disk : FileSystem} {staticFiles : Option StaticRoot}
    {router : Router H} {request : Request} {response : Response}
    (h : tryStatic disk staticFiles router request = some (some response)) :
    response.status ∈ [(304 : UInt16), 200, 206, 416] := by
  simp only [tryStatic, Option.bind_eq_bind, Option.bind_eq_some_iff] at h
  obtain ⟨sf, -, h⟩ := h
  split at h
  next => cases h
  split at h
  next => cases h
  split at h
  next => cases h
  next path _ =>
    obtain ⟨outcome, -, h⟩ := Option.bind_eq_some_iff.mp h
    obtain ⟨r, hr, hlast⟩ := Option.bind_eq_some_iff.mp (Option.some.inj h)
    have hstatus := intoResponse_status hr
    split at hlast
    next =>
      rcases applyRange_status hlast with heq | heq | heq
      · rcases hstatus with hs | hs <;> simp [heq, hs]
      · simp [heq]
      · simp [heq]
    next =>
      cases hlast
      rcases hstatus with hs | hs <;> simp [hs]

/-- There is a static file to send for the request: the method reads, no route claims the path, and
the path names a file under the root. -/
def NamesFile {H : Type} (disk : FileSystem) (staticFiles : Option StaticRoot) (router : Router H)
    (request : Request) : Prop :=
  ∃ sf path canon canonRoot «meta», staticFiles = some sf ∧
    (eqIgnoreAsciiCase request.method "GET".toList = true ∨
      eqIgnoreAsciiCase request.method "HEAD".toList = true) ∧
    router.find request.method request.path = none ∧ sf.resolve request.path = .ok path ∧
    disk.canonicalize path = some canon ∧ disk.canonicalize sf.root = some canonRoot ∧
    startsWith canon canonRoot = true ∧ disk.metadata canon = some «meta» ∧ «meta».isFile = true

theorem loadStatic_isSome_iff {disk : FileSystem} {root path : Bytes}
    {ifNoneMatch acceptEncoding : Option Text} :
    (loadStatic disk root path ifNoneMatch acceptEncoding).isSome ↔
      ∃ canon canonRoot «meta», disk.canonicalize path = some canon ∧
        disk.canonicalize root = some canonRoot ∧ startsWith canon canonRoot = true ∧
        disk.metadata canon = some «meta» ∧ «meta».isFile = true := by
  unfold loadStatic
  cases disk.canonicalize path with
  | none => simp
  | some canon =>
    cases disk.canonicalize root with
    | none => simp
    | some canonRoot =>
      cases hunder : startsWith canon canonRoot with
      | false => simp [hunder]
      | true =>
        cases hmeta : disk.metadata canon with
        | none => simp [hunder, hmeta]
        | some «meta» =>
          cases hfile : «meta».isFile with
          | false => simp [hunder, hmeta, hfile]
          | true =>
            simp only [hunder, hmeta, hfile, Option.bind_eq_bind, Option.bind_some, not_true,
              if_false]
            refine iff_of_true ?_ ⟨canon, canonRoot, «meta», rfl, rfl, hunder, hmeta, hfile⟩
            split <;> split <;> rfl

theorem tryStatic_isSome_iff {H : Type} {disk : FileSystem} {staticFiles : Option StaticRoot}
    {router : Router H} {request : Request} :
    (tryStatic disk staticFiles router request).isSome ↔
      NamesFile disk staticFiles router request := by
  constructor
  · intro h
    obtain ⟨response, h⟩ := Option.isSome_iff_exists.mp h
    simp only [tryStatic, Option.bind_eq_bind, Option.bind_eq_some_iff] at h
    obtain ⟨sf, hsf, h⟩ := h
    split at h
    next => cases h
    next hmethod =>
      split at h
      next => cases h
      next hroute =>
        split at h
        next => cases h
        next path hpath =>
          obtain ⟨outcome, houtcome, -⟩ := Option.bind_eq_some_iff.mp h
          obtain ⟨canon, canonRoot, «meta», hfile⟩ :=
            loadStatic_isSome_iff.1 (Option.isSome_iff_exists.mpr ⟨outcome, houtcome⟩)
          exact ⟨sf, path, canon, canonRoot, «meta», hsf, not_not.mp hmethod,
            Option.not_isSome_iff_eq_none.mp hroute, hpath, hfile⟩
  · rintro ⟨sf, path, canon, canonRoot, «meta», rfl, hmethod, hroute, hpath, hfile⟩
    have hload : ∀ inm ae, ∃ outcome, loadStatic disk sf.root path inm ae = some outcome :=
      fun inm ae => Option.isSome_iff_exists.mp
        (loadStatic_isSome_iff.2 ⟨canon, canonRoot, «meta», hfile⟩)
    obtain ⟨outcome, houtcome⟩ := hload (request.header "if-none-match".toList)
      (if sf.precompressed then some ((request.header "accept-encoding".toList).getD []) else none)
    have hunclaimed : ¬ (router.find request.method request.path).isSome := by
      rw [hroute]
      exact Bool.false_ne_true
    simp only [tryStatic, Option.bind_eq_bind, Option.bind_some]
    rw [if_neg (not_not.mpr hmethod), if_neg hunclaimed]
    simp only [hpath, houtcome, Option.bind_some, Option.isSome_some]

end Kernway
