import Kernway.FirstAt
import Kernway.HttpFraming
import Kernway.Results

namespace Kernway.Multipart

inductive MultipartError
  | malformed (reason : Text)
  | missingName
  | tooLarge (reason : Text)
  deriving DecidableEq

/-- Why a body is not split into parts: it is refused, or an access is out of range, which panics. -/
inductive Failure
  | refused (e : MultipartError)
  | outOfRange
  deriving DecidableEq

def malformed {α : Type} (reason : String) : Except Failure α :=
  .error (.refused (.malformed reason.toList))

def tooLarge {α : Type} (reason : String) : Except Failure α :=
  .error (.refused (.tooLarge reason.toList))

structure RawPart where
  name : Text
  filename : Option Text
  contentType : Option Text
  body : Bytes
  deriving DecidableEq

def maxParts : Nat := 1000

def maxPartHeaderBytes : Nat := 16 * 1024

section Access

/-- `&body[start..]`. -/
def sliceFrom (body : Bytes) (start : Nat) : Except Failure Bytes :=
  if start ≤ body.length then .ok (body.drop start) else .error .outOfRange

/-- `&body[start..stop]`. -/
def slice (body : Bytes) (start stop : Nat) : Except Failure Bytes :=
  if start ≤ stop ∧ stop ≤ body.length then .ok ((body.take stop).drop start)
  else .error .outOfRange

def find (haystack needle : Bytes) (start : Nat) : Option Nat :=
  if needle = [] ∨ haystack.length < start then none
  else (firstAt needle (haystack.drop start)).map (· + start)

def isPadding (b : UInt8) : Bool := b = 32 || b = 9

/-- `skip_ws`: past spaces and tabs. -/
def skipWs (body : Bytes) (pos : Nat) : Nat := pos + ((body.drop pos).takeWhile isPadding).length

end Access

section Headers

/-- `str::split("\r\n")`. -/
@[semireducible] def splitCrlf (s : Text) : List Text :=
  match _h : cutText ['\r', '\n'] s with
  | none => [s]
  | some (line, rest) => line :: splitCrlf rest
termination_by s.length
decreasing_by
  have hlen := congrArg List.length (cutText_eq_some _h)
  simp only [List.length_append, List.length_cons] at hlen
  omega

/-- A header parameter without the blanks and the quotes around it. -/
def unquote (v : Text) : Text := ((trim v).dropWhile (· = '"')).rdropWhile (· = '"')

structure PartMeta where
  name : Option Text := none
  filename : Option Text := none
  contentType : Option Text := none

/-- One parameter of a `Content-Disposition`. -/
def addParam (found : PartMeta) (param : Text) : PartMeta :=
  match "name=".toList.isPrefixOf? (trim param), "filename=".toList.isPrefixOf? (trim param) with
  | some v, _ => { found with name := some (unquote v) }
  | none, some v => { found with filename := some (unquote v) }
  | none, none => found

/-- One line of the headers; a line without a colon is passed over. -/
def addHeader (found : PartMeta) (line : Text) : PartMeta :=
  match splitHeader (trim line) with
  | none => found
  | some (key, value) =>
    if toAsciiLowercase key = "content-disposition".toList then
      ((value.splitOn ';').drop 1).foldl addParam found
    else if toAsciiLowercase key = "content-type".toList then
      { found with contentType := some value }
    else found

def parseHeaders (headers : Bytes) : Except Failure (Text × Option Text × Option Text) :=
  match decodeUtf8 headers with
  | none => malformed "non-UTF-8 part header"
  | some text =>
    let found := (splitCrlf text).foldl addHeader {}
    match found.name with
    | none => .error (.refused .missingName)
    | some name => .ok (name, found.filename, found.contentType)

end Headers

section Parts

/-- A turn of the loop of `parse_parts`, from right behind a boundary: the part that begins there and
where the next boundary ends, or nothing where the body is closed. -/
def readPart (body dash : Bytes) (pos : Nat) : Except Failure (Option (RawPart × Nat)) := do
  let here ← sliceFrom body pos
  if ([45, 45] : Bytes).isPrefixOf here then return none
  else
    let after := skipWs body pos
    let line ← sliceFrom body after
    if ([13, 10] : Bytes).isPrefixOf line then
      let start := after + 2
      match find body [13, 10, 13, 10] start with
      | none => malformed "part headers not terminated"
      | some headerEnd =>
        if maxPartHeaderBytes < headerEnd - start then tooLarge "a part header block is too large"
        else
          let headers ← slice body start headerEnd
          match find body (13 :: 10 :: dash) (headerEnd + 4) with
          | none => malformed "part body not terminated by a boundary"
          | some bodyEnd =>
            let content ← slice body (headerEnd + 4) bodyEnd
            let found ← parseHeaders headers
            return some (⟨found.1, found.2.1, found.2.2, content⟩,
              bodyEnd + (13 :: 10 :: dash).length)
    else malformed "boundary not followed by CRLF"

theorem find_bounds {haystack needle : Bytes} {start place : Nat}
    (h : find haystack needle start = some place) :
    start ≤ place ∧ place + needle.length ≤ haystack.length := by
  unfold find at h
  split at h
  next => cases h
  next hin =>
    obtain ⟨i, hi, rfl⟩ := Option.map_eq_some_iff.mp h
    have hlen := firstAt_bounds hi
    rw [List.length_drop] at hlen
    rw [not_or] at hin
    omega

theorem skipWs_bounds {body : Bytes} {pos : Nat} (h : pos ≤ body.length) :
    pos ≤ skipWs body pos ∧ skipWs body pos ≤ body.length := by
  have hlen := (List.takeWhile_prefix isPadding (l := body.drop pos)).length_le
  rw [List.length_drop] at hlen
  unfold skipWs
  omega

theorem sliceFrom_eq {body : Bytes} {start : Nat} (h : start ≤ body.length) :
    sliceFrom body start = .ok (body.drop start) := if_pos h

theorem slice_eq {body : Bytes} {start stop : Nat} (h : start ≤ stop) (hstop : stop ≤ body.length) :
    slice body start stop = .ok ((body.take stop).drop start) := if_pos ⟨h, hstop⟩

theorem sliceFrom_eq_ok {body here : Bytes} {start : Nat} (h : sliceFrom body start = .ok here) :
    start ≤ body.length := by
  unfold sliceFrom at h
  split at h
  next hle => exact hle
  next => cases h

theorem readPart_next {body dash : Bytes} {pos next : Nat} {part : RawPart}
    (h : readPart body dash pos = .ok (some (part, next))) :
    pos < next ∧ next ≤ body.length := by
  obtain ⟨here, hhere, h⟩ := bind_eq_ok_iff.mp h
  have hpos := sliceFrom_eq_ok hhere
  split at h
  next => cases h
  next =>
    obtain ⟨line, -, h⟩ := bind_eq_ok_iff.mp h
    have hskip := (skipWs_bounds hpos).1
    dsimp only at h
    split at h
    next =>
      split at h
      next => cases h
      next headerEnd hheader =>
        split at h
        next => cases h
        next =>
          obtain ⟨headers, -, h⟩ := bind_eq_ok_iff.mp h
          split at h
          next => cases h
          next bodyEnd hbody =>
            obtain ⟨content, -, h⟩ := bind_eq_ok_iff.mp h
            obtain ⟨found, -, h⟩ := bind_eq_ok_iff.mp h
            cases h
            have hheader' := find_bounds hheader
            have hbody' := find_bounds hbody
            omega
    next => cases h

theorem parseHeaders_inRange (headers : Bytes) : parseHeaders headers ≠ .error .outOfRange := by
  unfold parseHeaders
  split
  next => simp [malformed]
  next =>
    dsimp only
    split
    next => simp
    next => simp

theorem readPart_inRange {body dash : Bytes} {pos : Nat} (h : pos ≤ body.length) :
    readPart body dash pos ≠ .error .outOfRange := by
  have hskip := skipWs_bounds h
  rw [readPart]
  simp only [sliceFrom_eq h, sliceFrom_eq hskip.2, bind, Except.bind]
  split
  next => simp [pure, Except.pure]
  next =>
    split
    next =>
      split
      next => simp [malformed]
      next headerEnd hheader =>
        have hheader' := find_bounds hheader
        simp only [List.length_cons, List.length_nil] at hheader'
        split
        next => simp [tooLarge]
        next =>
          rw [slice_eq hheader'.1 (by omega)]
          dsimp only
          split
          next => simp [malformed]
          next bodyEnd hbody =>
            have hbody' := find_bounds hbody
            rw [slice_eq hbody'.1 (by omega)]
            dsimp only
            cases hmeta : parseHeaders ((body.take headerEnd).drop (skipWs body pos + 2)) with
            | error e =>
              intro heq
              cases heq
              exact parseHeaders_inRange _ hmeta
            | ok found => simp [pure, Except.pure]
    next => simp [malformed]

/-- The loop of `parse_parts`, from right behind a boundary. -/
@[semireducible] def partsFrom (body dash : Bytes) (parts : List RawPart) (pos : Nat) :
    Except Failure (List RawPart) :=
  match _h : readPart body dash pos with
  | .error e => .error e
  | .ok none => .ok parts
  | .ok (some (part, next)) =>
    if maxParts ≤ parts.length then tooLarge "too many parts"
    else partsFrom body dash (parts ++ [part]) next
termination_by body.length - pos
decreasing_by
  have hnext := readPart_next _h
  omega

theorem partsFrom_eq (body dash : Bytes) (parts : List RawPart) (pos : Nat) :
    partsFrom body dash parts pos = match readPart body dash pos with
      | .error e => .error e
      | .ok none => .ok parts
      | .ok (some (part, next)) =>
        if maxParts ≤ parts.length then tooLarge "too many parts"
        else partsFrom body dash (parts ++ [part]) next := by
  rw [partsFrom]
  split <;> simp_all

theorem partsFrom_inRange {body dash : Bytes} {pos : Nat} (h : pos ≤ body.length)
    (parts : List RawPart) : partsFrom body dash parts pos ≠ .error .outOfRange := by
  induction hl : body.length - pos using Nat.strongRecOn generalizing pos parts with
  | _ n ih =>
    rw [partsFrom_eq]
    split
    next e he =>
      intro heq
      cases heq
      exact readPart_inRange h he
    next => simp
    next part next hpart =>
      obtain ⟨hlt, hle⟩ := readPart_next hpart
      split
      next => simp [tooLarge]
      next => exact ih (body.length - next) (by omega) hle _ rfl

def parseParts (body boundary : Bytes) : Except Failure (List RawPart) :=
  match find body (45 :: 45 :: boundary) 0 with
  | none => malformed "no opening boundary"
  | some place =>
    partsFrom body (45 :: 45 :: boundary) [] (place + (45 :: 45 :: boundary).length)

/-- No slice of `parse_parts` is out of range. -/
theorem parseParts_inRange (body boundary : Bytes) :
    parseParts body boundary ≠ .error .outOfRange := by
  unfold parseParts
  split
  next => simp [malformed]
  next place hplace => exact partsFrom_inRange (find_bounds hplace).2 []

end Parts

end Kernway.Multipart
