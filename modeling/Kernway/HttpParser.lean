import Kernway.HttpRequest
import Kernway.Incremental

namespace Kernway

/-- The scan of `find_head_end` from `pos` on, `buf` being `buf[pos..]`. -/
@[semireducible] def findHeadEndFrom (buf : Bytes) (pos lines : Nat) : Option (Nat × Nat) :=
  match _h : cutAt 10 buf with
  | none => none
  | some (line, rest) =>
    if stripSuffix 13 line = [] then some (pos + line.length + 1, lines)
    else findHeadEndFrom rest (pos + line.length + 1) (lines + 1)
termination_by buf.length
decreasing_by have := cutAt_length _h; omega

/-- The offset past the blank line that ends the head, and the lines before it. -/
def findHeadEnd (buf : Bytes) : Option (Nat × Nat) := findHeadEndFrom buf 0 0

def parseRequestLine (line : Text) : Except ParseError (Text × Text × QueryParams × HttpVersion) :=
  match requestLineParts line with
  | method :: fullPath :: parts =>
    if method = [] then .error (.badRequestLine line)
    else do
      let (path, queryStr) := splitTarget fullPath
      let query ← parseQueryString queryStr
      return (toAsciiUppercase method, path, query, parseVersion parts.head?)
  | _ => .error (.badRequestLine line)

/-- The header loop: it ends at the first line that is blank once trimmed. -/
def parseHeaderLines : List Text → Headers → Except ParseError Headers
  | [], headers => .ok headers
  | line :: rest, headers =>
    if trim line = [] then .ok headers
    else match splitHeader (trim line) with
      | some (name, value) => do
        let headers ← appendField headers name value
        parseHeaderLines rest headers
      | none => parseHeaderLines rest headers

/-- What `parse_head_inner` makes of a head that has arrived whole. -/
def parseHeadText (head : Text) : Except ParseError (Request × Nat) := do
  let requestLine := trim ((lines head).headD [])
  let (method, path, query, version) ← parseRequestLine requestLine
  let headers ← parseHeaderLines (lines head).tail {}
  return ({ method, path, version, headers, query, pathParams := [], body := [],
            bodySpool := none, remoteAddr := none }, contentLength headers)

def notUtf8 : ParseError := .badRequestLine "head is not valid UTF-8".toList

def parseHeadInner (buf : Bytes) : Except ParseError (Option (Request × Nat × Nat)) :=
  match findHeadEnd buf with
  | none => if buf.length > maxHeadBytes then .error .tooLarge else .ok none
  | some (headEnd, _) =>
    if headEnd > maxHeadBytes then .error .tooLarge
    else match decodeUtf8 (buf.take headEnd) with
      | none => .error notUtf8
      | some head => do
        let (request, contentLength) ← parseHeadText head
        return some (request, headEnd, contentLength)

def parseBytes (buf : Bytes) : Except ParseError Parsed := do
  match ← parseHeadInner buf with
  | none => return .incomplete
  | some (request, headEnd, contentLength) =>
    if contentLength > maxBodyBytes then throw .tooLarge
    let total := headEnd + contentLength
    if buf.length < total then return .incomplete
    return .complete { request with body := (buf.take total).drop headEnd } total

example : (match parseBytes (encodeUtf8 "get /a?x=1 HTTP/1.1\r\nHost: h\r\n\r\nGET".toList) with
    | .ok (.complete r n) => r.method == "GET".toList && r.path == "/a".toList &&
        r.query.get "x".toList == some "1".toList && r.headers.get "HOST".toList == some "h".toList
        && n == 32
    | _ => false) = true := by decide +kernel

end Kernway
