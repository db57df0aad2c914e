import Kernway.Str

namespace Kernway.HttpClient

/-- `str::parse::<u16>`. -/
def parseU16 (s : Text) : Option UInt16 :=
  match parseUsize s with
  | some n => if n < 2 ^ 16 then some (.ofNat n) else none
  | none => none

/-- `rsplit_once`: what stands before and after the last `d`. -/
def cutAtLast (d : Char) (s : Text) : Option (Text × Text) :=
  (cutAt d s.reverse).map fun cut => (cut.2.reverse, cut.1.reverse)

structure Url where
  scheme : Text
  host : Text
  port : UInt16
  pathAndQuery : Text
  deriving DecidableEq

inductive UrlError
  | noScheme (url : Text)
  | unsupportedScheme (scheme : Text)
  | noHost (url : Text)
  | badPort (url : Text)

def http : Text := "http".toList

def https : Text := "https".toList

namespace Url

def parse (url : Text) : Except UrlError Url := do
  let some (scheme, rest) := cutText "://".toList url | throw (.noScheme url)
  let scheme := toAsciiLowercase scheme
  if scheme ≠ http ∧ scheme ≠ https then throw (.unsupportedScheme scheme)
  let authority := rest.takeWhile (· ≠ '/')
  let path := rest.dropWhile (· ≠ '/')
  if authority = [] then throw (.noHost url)
  let (host, port) ← match cutAtLast ':' authority with
    | some (host, port) =>
      match parseU16 port with
      | some port => pure (host, port)
      | none => throw (.badPort url)
    | none => pure (authority, if scheme = https then 443 else 80)
  return ⟨scheme, host, port, if path = [] then ['/'] else path⟩

def isTls (url : Url) : Bool := url.scheme = https

/-- `origin_of`: the pooling key of a URL. -/
def origin (url : Url) : Text × Text × UInt16 := (url.scheme, toAsciiLowercase url.host, url.port)

/-- The path without the query. -/
def path (url : Url) : Text := (url.pathAndQuery.splitOn '?').headD []

end Url

/-- The path up to and with its last `/`. -/
def directory (path : Text) : Text :=
  match cutAtLast '/' path with
  | some (dir, _) => dir ++ ['/']
  | none => ['/']

def resolveLocation (base : Url) (location : Text) : Except UrlError Url :=
  let loc := trim location
  if containsText loc "://".toList then Url.parse loc
  else if loc.head? = some '/' then .ok { base with pathAndQuery := loc }
  else .ok { base with pathAndQuery := directory base.pathAndQuery ++ loc }

example : (Url.parse "HTTPS://Shop.example:8443/a?b".toList).toOption =
    some ⟨https, "Shop.example".toList, 8443, "/a?b".toList⟩ := by decide

end Kernway.HttpClient
