import Kernway.HttpParser
import Kernway.UnicodeCase

namespace Kernway

/-- `read_line`: through the next `\n`, or all that is left; not UTF-8 is an I/O error. -/
def readLine (input : Bytes) : Except ParseError (Text × Bytes) :=
  let (line, rest) := match cutAt 10 input with
    | some (line, rest) => (line ++ [10], rest)
    | none => (input, [])
  match decodeUtf8 line with
  | some s => .ok (s, rest)
  | none => .error .io

theorem trim_nil : trim [] = [] := rfl

theorem readLine_decreases {input rest : Bytes} {line : Text}
    (h : readLine input = .ok (line, rest)) (hb : trim line ≠ []) : rest.length < input.length := by
  unfold readLine at h
  cases hc : cutAt 10 input with
  | some p =>
    have hlen := cutAt_length hc
    simp only [hc] at h
    split at h
    next => cases Except.ok.inj h; omega
    next => simp at h
  | none =>
    simp only [hc] at h
    split at h
    next s hs =>
      cases Except.ok.inj h
      cases input with
      | nil =>
        simp only [decodeUtf8_nil, Option.some.injEq] at hs
        exact absurd (by rw [← hs]; rfl) hb
      | cons b bs => simp
    next => simp at h

@[semireducible] def readHeaders (input : Bytes) (headers : Headers) :
    Except ParseError (Headers × Bytes) :=
  match _h : readLine input with
  | .error e => .error e
  | .ok (line, rest) =>
    if _hb : trim line = [] then .ok (headers, rest)
    else match splitHeader (trim line) with
      | some (name, value) =>
        match appendField headers name value with
        | .ok headers => readHeaders rest headers
        | .error e => .error e
      | none => readHeaders rest headers
termination_by input.length
decreasing_by all_goals exact readLine_decreases _h _hb

/-- `read_exact`: the next `n` bytes, an I/O error where fewer are left. -/
def readExact (n : Nat) (input : Bytes) : Except ParseError Bytes :=
  if input.length < n then .error .io else .ok (input.take n)

/-- `parse_from_reader` on a reader that yields `input` and then ends. -/
def parseFromReader (u : UnicodeCase) (input : Bytes) : Except ParseError Request := do
  let (line, rest) ← readLine input
  let requestLine := trim line
  match requestLineParts requestLine with
  | first :: fullPath :: parts =>
    let method := toUppercase u first
    let version := parseVersion parts.head?
    let (path, queryStr) := splitTarget fullPath
    let query ← parseQueryString queryStr
    let (headers, rest) ← readHeaders rest {}
    if contentLength headers > 10 * 1024 * 1024 then throw .tooLarge
    let body ← readExact (contentLength headers) rest
    return { method, path, version, headers, query, pathParams := [], body,
             bodySpool := none, remoteAddr := none }
  | _ => throw (.badRequestLine requestLine)

end Kernway
