import Kernway.Fields

namespace Kernway

/-- Why a request could not be decoded. `panicked` is the overflow `Fields::push` panics on. -/
inductive ParseError
  | io
  | badRequestLine (line : Text)
  | tooLarge
  | panicked
  deriving DecidableEq

inductive HttpVersion
  | http10
  | http11
  deriving DecidableEq

structure SpooledBody where
  path : Text
  len : Nat
  deriving DecidableEq

structure SocketAddr where
  ip : Bytes
  port : Nat
  deriving DecidableEq

structure Request where
  method : Text
  path : Text
  version : HttpVersion
  headers : Headers
  query : QueryParams
  pathParams : List (Text × Text)
  body : Bytes
  bodySpool : Option SpooledBody
  remoteAddr : Option SocketAddr
  deriving DecidableEq

def maxHeadBytes : Nat := 8 * 1024

def maxBodyBytes : Nat := 10 * 1024 * 1024

/-- What `parse_bytes` answers when it does not fail. -/
inductive Parsed
  | complete (request : Request) (consumed : Nat)
  | incomplete
  deriving DecidableEq

/-- `append`, with the panic of `offset` as an error. -/
def appendField {ci : Bool} (f : Fields ci) (name value : Text) : Except ParseError (Fields ci) :=
  match f.append name value with
  | some f => .ok f
  | none => .error .panicked

def splitHeader (line : Text) : Option (Text × Text) :=
  (cutAt ':' line).map fun p => (trim p.1, trim p.2)

/-- The key and value of one `&`-separated piece of a query; an absent or empty key is dropped. -/
def queryPair (pair : Text) : Option (Text × Text) :=
  if pair = [] then none
  else
    let (key, val) := (cutAt '=' pair).getD (pair, [])
    if key = [] then none else some (key, val)

def parseQueryString (query : Text) : Except ParseError QueryParams :=
  ((query.splitOn '&').filterMap queryPair).foldlM (fun ps p => appendField ps p.1 p.2) {}

/-- `splitn(3, ' ')`. -/
def requestLineParts (line : Text) : List Text :=
  match cutAt ' ' line with
  | none => [line]
  | some (a, rest) => a :: match cutAt ' ' rest with
    | none => [rest]
    | some (b, c) => [b, c]

def parseVersion (part : Option Text) : HttpVersion :=
  match part.map trim with
  | none => .http10
  | some v => if v = "HTTP/1.0".toList then .http10 else .http11

/-- The request target up to `?`, and what follows it. -/
def splitTarget (target : Text) : Text × Text := (cutAt '?' target).getD (target, [])

/-- `headers.get("content-length")` as a number, zero where there is none or it does not parse. -/
def contentLength (headers : Headers) : Nat :=
  ((headers.get "content-length".toList).bind parseUsize).getD 0

end Kernway
