import Kernway.ChunkedAgreement
import Kernway.ClientResponse

namespace Kernway.HttpClient

/-- The head at the front of what was read, and the bytes behind it. -/
def parsedHead (bytes : Bytes) : Option (Head × Bytes) :=
  match splitHead bytes with
  | none => none
  | some (block, body) =>
    match parseHeadSpans block with
    | .ok head => some (head, body)
    | .error _ => none

inductive BodyReader
  | buffered
  | streamed

/-- All of a body has arrived that its reader waits for: of a chunked one the line of the zero-size
chunk, and where it is streamed a line after that. -/
def BodyTaken (reader : BodyReader) (plan : BodyPlan) (body : Bytes) : Prop :=
  match plan with
  | .length n => n ≤ body.length
  | .chunked => ∃ rest, Ended body rest ∧ (reader = .streamed → findCrlf rest ≠ none)
  | .untilClose => False

def Taken (reader : BodyReader) (bytes : Bytes) : Prop :=
  ∃ head body, parsedHead bytes = some (head, body) ∧ BodyTaken reader (bodyPlan head) body

/-- The trailer fields of a chunked body and the empty line that ends it. -/
inductive Trailers : Bytes → Prop
  | blank : Trailers [13, 10]
  | field {line more : Bytes} (hline : findCrlf line = none) (hfield : line ≠ [])
      (hmore : Trailers more) : Trailers (line ++ 13 :: 10 :: more)

/-- A response to such a request or of such a status ends with its head. -/
def isBodiless (method : Method) (status : UInt16) : Bool :=
  method = .head || (100 ≤ status && status < 200) || status = 204 || status = 304

def IsBody (method : Method) (head : Head) (body : Bytes) : Prop :=
  if isBodiless method head.status then body = []
  else match bodyPlan head with
    | .length n => body.length = n
    | .chunked => ∃ rest, Ended body rest ∧ Trailers rest
    | .untilClose => False

/-- One response to a request of this method, from its first byte to its last. -/
def Message (method : Method) (bytes : Bytes) : Prop :=
  ∃ head body, parsedHead bytes = some (head, body) ∧ IsBody method head body

/-- The first reads that bring all that the reader of the body waits for bring exactly one
response. -/
def EndsAtBoundary (method : Method) (reader : BodyReader) (reads : List Chunk) : Prop :=
  ∃ done rest, reads = done ++ rest ∧ First (Taken reader) done ∧ Message method (received done)

/-- What is still to be read begins with the byte after a response. -/
def AtBoundary (method : Method) (reads rest : List Chunk) : Prop :=
  ∃ message, Message method message ∧ received reads = message ++ received rest

theorem findSeq_bounds {needle buf : Bytes} {i : Nat} (h : findSeq needle buf = some i) :
    i + needle.length ≤ buf.length := by
  induction buf generalizing i with
  | nil =>
    unfold findSeq at h
    split at h
    next hnil =>
      cases h
      rw [hnil, List.length_nil]
    next => cases h
  | cons b buf ih =>
    unfold findSeq at h
    split at h
    next hhere =>
      cases h
      have := hhere.length_le
      omega
    next =>
      obtain ⟨j, hj, rfl⟩ := Option.map_eq_some_iff.mp h
      have := ih hj
      rw [List.length_cons]
      omega

theorem findSeq_append {needle buf : Bytes} {i : Nat} (hne : needle ≠ [])
    (h : findSeq needle buf = some i) (ext : Bytes) : findSeq needle (buf ++ ext) = some i := by
  induction buf generalizing i with
  | nil =>
    unfold findSeq at h
    rw [if_neg hne] at h
    cases h
  | cons b buf ih =>
    unfold findSeq at h
    rw [List.cons_append, findSeq]
    split at h
    next hhere =>
      cases h
      rw [if_pos]
      exact hhere.trans (List.prefix_append (b :: buf) ext)
    next hhere =>
      obtain ⟨j, hj, rfl⟩ := Option.map_eq_some_iff.mp h
      have hle := findSeq_bounds hj
      rw [if_neg, ih hj]
      · rfl
      · intro hlong
        -- the needle fits into what was there
        apply hhere
        apply List.prefix_of_prefix_length_le hlong (List.prefix_append (b :: buf) ext)
        rw [List.length_cons]
        omega

theorem splitHead_append {buf block body : Bytes} (h : splitHead buf = some (block, body))
    (ext : Bytes) : splitHead (buf ++ ext) = some (block, body ++ ext) := by
  obtain ⟨pos, hpos, hsplit⟩ := Option.map_eq_some_iff.mp h
  obtain ⟨rfl, rfl⟩ := Prod.mk.inj hsplit
  have hle : pos + 4 ≤ buf.length := findSeq_bounds hpos
  have hfind : findSeq headerTerminator (buf ++ ext) = some pos :=
    findSeq_append (List.cons_ne_nil _ _) hpos ext
  rw [splitHead, hfind]
  simp only [Option.map_some]
  rw [List.take_append_of_le_length hle, List.drop_append_of_le_length hle]

theorem parsedHead_append {bytes body : Bytes} {head : Head}
    (h : parsedHead bytes = some (head, body)) (ext : Bytes) :
    parsedHead (bytes ++ ext) = some (head, body ++ ext) := by
  unfold parsedHead at h
  split at h
  next => cases h
  next block rest hsplit =>
    split at h
    next hparse =>
      obtain ⟨rfl, rfl⟩ := Prod.mk.inj (Option.some.inj h)
      rw [parsedHead, splitHead_append hsplit ext]
      simp only [hparse]
    next => cases h

/-- The first reads that bring a head, which parses, and bytes alongside it. -/
structure HeadReads (done : List Chunk) (head : Head) (leftover : Bytes) : Prop where
  parsed : parsedHead (received done) = some (head, leftover)
  before : ∀ before, before <+: done → before ≠ done → parsedHead (received before) = none
  fits : leftover.length < capacity

theorem readHead_eq_ok {conn : Conn} {head : Head} {leftover : Bytes} {reads : List Chunk}
    (h : readHead conn = .ok (head, leftover, reads)) :
    ∃ done, conn.reads = done ++ reads ∧ HeadReads done head leftover := by
  obtain ⟨⟨⟨block, body⟩, rest⟩, hread, h⟩ := bind_eq_ok_iff.mp h
  obtain ⟨head', hparse, h⟩ := bind_eq_ok_iff.mp h
  cases h
  obtain ⟨done, hreads, hdone, hbefore, hfits⟩ := readUntil_eq_ok hread
  have hsplit : splitHead (received done) = some (block, leftover) := Except.ok.inj hdone
  refine ⟨done, hreads, ?_, ?_, ?_⟩
  · rw [parsedHead, hsplit]
    simp only [hparse]
  · intro before hle hne
    have hnone : splitHead (received before) = none := Except.ok.inj (hbefore before hle hne)
    rw [parsedHead, hnone]
  · obtain ⟨pos, -, hcut⟩ := Option.map_eq_some_iff.mp hsplit
    obtain ⟨-, rfl⟩ := Prod.mk.inj hcut
    have hbound : (received done).length < capacity := hfits (by decide)
    rw [List.length_drop]
    omega

/-- The reads of a head and those of a body together are the first that bring all of a response. -/
theorem HeadReads.first {reader : BodyReader} {done more : List Chunk} {head : Head}
    {leftover : Bytes} (h : HeadReads done head leftover)
    (htaken : BodyTaken reader (bodyPlan head) (leftover ++ received more))
    (hbefore : ∀ before, before <+: more → before ≠ more →
      ¬ BodyTaken reader (bodyPlan head) (leftover ++ received before)) :
    First (Taken reader) (done ++ more) := by
  constructor
  · rw [received_append]
    exact ⟨head, _, parsedHead_append h.parsed _, htaken⟩
  · rintro before hle hne ⟨head', body, hparsed, hbody⟩
    rcases before_or_within hle with ⟨hless, hless'⟩ | ⟨d, hd, rfl⟩
    · rw [h.before before hless hless'] at hparsed
      cases hparsed
    · rw [received_append, parsedHead_append h.parsed] at hparsed
      obtain ⟨rfl, rfl⟩ := Prod.mk.inj (Option.some.inj hparsed)
      exact hbefore d hd (fun heq => hne (by rw [heq])) hbody

/-- What `decode_chunked` answers with says whether the zero-size chunk has arrived. -/
theorem decodeChunked_iff {bytes : Bytes} (hfits : bytes.length < capacity) :
    (∃ body, decodeChunked bytes = .ok (some body)) ↔ ∃ rest, Ended bytes rest := by
  constructor
  · rintro ⟨body, hbody⟩
    rcases ended_or_undecoded hfits with hended | hnone | hover
    · exact hended
    · rw [hnone] at hbody
      cases hbody
    · rw [hover.decodeChunked_eq hfits] at hbody
      cases hbody
  · rintro ⟨rest, body, line, hchunks, hline, hsize⟩
    exact ⟨body, hchunks.decodeChunked_last hline hsize hfits⟩

theorem pull_done_iff {bytes : Bytes} :
    (∃ body left, ChunkDecoder.pull .size bytes = .ok (.done, body, left)) ↔
      ∃ rest, Ended bytes rest ∧ findCrlf rest ≠ none := by
  constructor
  · rintro ⟨body, left, hdone⟩
    rcases ended_or_unfinished bytes with ⟨rest, hended⟩ | hpull
    · refine ⟨rest, hended, ?_⟩
      intro hnone
      obtain ⟨body', line, hchunks, hline, hsize⟩ := hended
      rw [hchunks.pull_last hline hsize, ChunkDecoder.pull_trailer_none hnone] at hdone
      cases hdone
    · exact absurd hdone (hpull body left)
  · rintro ⟨rest, ⟨body, line, hchunks, hline, hsize⟩, hsome⟩
    obtain ⟨i, hi⟩ := Option.ne_none_iff_exists'.mp hsome
    obtain ⟨left, hrest, htrailer⟩ := findCrlf_some hi
    refine ⟨body ++ [], left, ?_⟩
    rw [hchunks.pull_last hline hsize, hrest, ChunkDecoder.pull_trailer htrailer]
    rfl

theorem readBody_eq_ok {plan : BodyPlan} {conn : Conn} {leftover body : Bytes}
    {reads : List Chunk} (hfits : leftover.length < capacity)
    (h : readBody plan conn leftover = .ok (body, true, reads)) :
    ∃ more, conn.reads = more ++ reads ∧ BodyTaken .buffered plan (leftover ++ received more) ∧
      ∀ before, before <+: more → before ≠ more →
        ¬ BodyTaken .buffered plan (leftover ++ received before) := by
  cases plan with
  | length n =>
    obtain ⟨⟨body', reads'⟩, hread, h⟩ := bind_eq_ok_iff.mp h
    cases h
    obtain ⟨more, hreads, hdone, hbefore, -⟩ := readUntil_eq_ok hread
    refine ⟨more, hreads, ?_, ?_⟩
    · have htake := Except.ok.inj hdone
      split at htake
      next => cases htake
      next hle => exact Nat.le_of_not_lt hle
    · intro before hle hne htaken
      have htake := Except.ok.inj (hbefore before hle hne)
      rw [if_neg (Nat.not_lt.mpr htaken)] at htake
      cases htake
  | chunked =>
    obtain ⟨⟨body', reads'⟩, hread, h⟩ := bind_eq_ok_iff.mp h
    cases h
    obtain ⟨more, hreads, hdone, hbefore, hmore⟩ := readUntil_eq_ok hread
    have hmore := hmore hfits
    refine ⟨more, hreads, ?_, ?_⟩
    · have hdecode : decodeChunked (leftover ++ received more) = .ok (some body) := by
        cases hanswer : decodeChunked (leftover ++ received more) with
        | error e =>
          rw [hanswer] at hdone
          cases hdone
        | ok answer =>
          rw [hanswer] at hdone
          rw [Except.ok.inj hdone]
      obtain ⟨rest, hended⟩ := (decodeChunked_iff hmore).mp ⟨body, hdecode⟩
      exact ⟨rest, hended, nofun⟩
    · rintro before hle hne ⟨rest, hended, -⟩
      have hshort : (leftover ++ received before).length < capacity := by
        obtain ⟨ext, rfl⟩ := hle
        rw [received_append, ← List.append_assoc, List.length_append] at hmore
        omega
      obtain ⟨body', hdecode⟩ := (decodeChunked_iff hshort).mpr ⟨rest, hended⟩
      have hnone := hbefore before hle hne
      rw [hdecode] at hnone
      cases hnone
  | untilClose =>
    obtain ⟨body', -, h⟩ := bind_eq_ok_iff.mp h
    cases h

theorem readResponse_eq_ok {decode : ContentEncoding → Bytes → Except Text Bytes} {conn after : Conn}
    {response : Response} (h : readResponse decode conn = .ok (response, true, after)) :
    ∃ done, conn.reads = done ++ after.reads ∧ First (Taken .buffered) done := by
  obtain ⟨⟨head, leftover, reads⟩, hhead, h⟩ := bind_eq_ok_iff.mp h
  obtain ⟨⟨body, keepable, reads'⟩, hbody, h⟩ := bind_eq_ok_iff.mp h
  obtain ⟨response', -, h⟩ := bind_eq_ok_iff.mp h
  cases h
  obtain ⟨done, hreads, hdone⟩ := readHead_eq_ok hhead
  obtain ⟨more, hmore, htaken, hbefore⟩ := readBody_eq_ok hdone.fits hbody
  refine ⟨done ++ more, ?_, hdone.first htaken hbefore⟩
  rw [hreads, List.append_assoc]
  exact congrArg (done ++ ·) hmore

end Kernway.HttpClient
