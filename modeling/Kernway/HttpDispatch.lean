import Kernway.HttpConnection
import Kernway.HttpHead
import Kernway.Reads

namespace Kernway

structure UploadConfig where
  maxInmemoryBody : Nat
  maxUploadSize : UInt64

/-- The loop that reads until `parse_head` finds the head; it ends with the connection where the
head is refused or the reads run out. -/
def awaitHead (buf : Bytes) (reads : List Chunk) :
    Option ((Request × Nat × Nat) × Bytes × List Chunk) :=
  match parseHeadInner buf with
  | .ok (some head) => some (head, buf, reads)
  | .error _ => none
  | .ok none =>
    match reads with
    | [] => none
    | chunk :: reads => awaitHead (buf ++ chunk.val) reads
termination_by structural reads

def awaitBody (total : Nat) (buf : Bytes) (reads : List Chunk) : Option (Bytes × List Chunk) :=
  if total ≤ buf.length then some (buf, reads)
  else match reads with
    | [] => none
    | chunk :: reads => awaitBody total (buf ++ chunk.val) reads
termination_by structural reads

/-- The loop of `spool_body`; as many bytes are `written` as the file holds. -/
def spoolRest (contentLength : Nat) (file buf : Bytes) (reads : List Chunk) :
    Option (Bytes × Bytes × List Chunk) :=
  if contentLength ≤ file.length then some (file, buf, reads)
  else match reads with
    | [] => none
    | chunk :: reads =>
      let take := min (contentLength - file.length) chunk.val.length
      let buf := if take < chunk.val.length then buf ++ chunk.val.drop take else buf
      spoolRest contentLength (file ++ chunk.val.take take) buf reads
termination_by structural reads

/-- `spool_body`: what the temporary file holds at the end, and the bytes that are not of it. -/
def spoolBody (headEnd contentLength : Nat) (buf : Bytes) (reads : List Chunk) :
    Option (Bytes × Bytes × List Chunk) :=
  let bodyHave := buf.length - headEnd
  let fromBuf := min contentLength bodyHave
  spoolRest contentLength ((buf.drop headEnd).take fromBuf) (buf.drop (headEnd + fromBuf)) reads

/-- A request as it is handed to the dispatcher, with what its temporary file holds. -/
structure Dispatched where
  request : Request
  spooled : Bytes

/-- The request a dispatcher sees that reads the body wherever it is. -/
def Dispatched.seen (dispatched : Dispatched) : Request :=
  { dispatched.request with
    body := match dispatched.request.bodySpool with
      | none => dispatched.request.body
      | some _ => dispatched.spooled
    bodySpool := none }

/-- The paths of the temporary files, and whether the disk takes them, by the number of requests
served before. -/
structure TempFiles where
  path : UInt32 → Text
  written : UInt32 → Bool

/-- The part of the loop of `serve_connection` before the answer: the request, and how many bytes
of the buffer are its own. -/
def readRequest (upload : UploadConfig) (temp : TempFiles) (served : UInt32) (buf : Bytes)
    (reads : List Chunk) : Option (Dispatched × Nat × Bytes × List Chunk) := do
  let ((request, headEnd, contentLength), buf, reads) ← awaitHead buf reads
  if upload.maxUploadSize.toNat < contentLength then none
  else if contentLength ≤ upload.maxInmemoryBody then
    let total := headEnd + contentLength
    let (buf, reads) ← awaitBody total buf reads
    return (⟨{ request with body := (buf.take total).drop headEnd }, []⟩, total, buf, reads)
  else if temp.written served then
    let (file, buf, reads) ← spoolBody headEnd contentLength buf reads
    return (⟨{ request with bodySpool := some ⟨temp.path served, contentLength⟩ }, file⟩, 0, buf,
      reads)
  else none

/-- The first request of a stream of bytes, and the bytes behind it. -/
def cutRequest (maxUploadSize : UInt64) (stream : Bytes) : Option (Request × Bytes) :=
  match parseHeadInner stream with
  | .ok (some (request, headEnd, contentLength)) =>
    if contentLength ≤ maxUploadSize.toNat ∧ headEnd + contentLength ≤ stream.length then
      some ({ request with body := (stream.drop headEnd).take contentLength },
        stream.drop (headEnd + contentLength))
    else none
  | _ => none

theorem awaitHead_some {buf buf' : Bytes} {reads reads' : List Chunk} {head : Request × Nat × Nat}
    (h : awaitHead buf reads = some (head, buf', reads')) :
    parseHeadInner (buf ++ received reads) = .ok (some head) ∧ head.2.1 ≤ buf'.length ∧
      buf' ++ received reads' = buf ++ received reads := by
  induction reads generalizing buf with
  | nil =>
    unfold awaitHead at h
    split at h
    next hparse =>
      cases h
      refine ⟨?_, (parseHeadInner_bounds hparse).2, rfl⟩
      rw [parseHeadInner_append (by simp [hparse]), hparse]
    next => cases h
    next => cases h
  | cons chunk reads ih =>
    unfold awaitHead at h
    split at h
    next hparse =>
      cases h
      refine ⟨?_, (parseHeadInner_bounds hparse).2, rfl⟩
      rw [parseHeadInner_append (by simp [hparse]), hparse]
    next => cases h
    next =>
      rw [append_received_cons]
      exact ih h

theorem awaitHead_none {buf : Bytes} {reads : List Chunk} (h : awaitHead buf reads = none)
    (head : Request × Nat × Nat) : parseHeadInner (buf ++ received reads) ≠ .ok (some head) := by
  induction reads generalizing buf with
  | nil =>
    unfold awaitHead at h
    split at h
    next => cases h
    next hparse =>
      rw [parseHeadInner_append (by simp [hparse]), hparse]
      exact nofun
    next hparse =>
      rw [show received [] = [] from rfl, List.append_nil, hparse]
      exact nofun
  | cons chunk reads ih =>
    unfold awaitHead at h
    split at h
    next => cases h
    next hparse =>
      rw [parseHeadInner_append (by simp [hparse]), hparse]
      exact nofun
    next =>
      rw [append_received_cons]
      exact ih h

theorem awaitBody_some {total : Nat} {buf buf' : Bytes} {reads reads' : List Chunk}
    (h : awaitBody total buf reads = some (buf', reads')) :
    total ≤ buf'.length ∧ buf' ++ received reads' = buf ++ received reads := by
  induction reads generalizing buf with
  | nil =>
    unfold awaitBody at h
    split at h
    next hle =>
      cases h
      exact ⟨hle, rfl⟩
    next => cases h
  | cons chunk reads ih =>
    unfold awaitBody at h
    split at h
    next hle =>
      cases h
      exact ⟨hle, rfl⟩
    next =>
      rw [append_received_cons]
      exact ih h

theorem awaitBody_none {total : Nat} {buf : Bytes} {reads : List Chunk}
    (h : awaitBody total buf reads = none) : (buf ++ received reads).length < total := by
  induction reads generalizing buf with
  | nil =>
    unfold awaitBody at h
    split at h
    next => cases h
    next hlt =>
      rw [show received [] = [] from rfl, List.append_nil]
      omega
  | cons chunk reads ih =>
    unfold awaitBody at h
    split at h
    next => cases h
    next =>
      rw [append_received_cons]
      exact ih h

/-- The spool has not passed the end of the body, and bytes are kept aside only at that end. -/
def Spooling (contentLength : Nat) (file buf : Bytes) : Prop :=
  file.length ≤ contentLength ∧ (buf ≠ [] → file.length = contentLength)

/-- One read leaves the bytes in their order, the body's in the file and the rest aside. -/
theorem Spooling.step {contentLength : Nat} {file buf : Bytes} (chunk : Bytes)
    (h : Spooling contentLength file buf) (hmore : file.length < contentLength) :
    ∃ buf', (if min (contentLength - file.length) chunk.length < chunk.length then
        buf ++ chunk.drop (min (contentLength - file.length) chunk.length) else buf) = buf' ∧
      Spooling contentLength
        (file ++ chunk.take (min (contentLength - file.length) chunk.length)) buf' ∧
      file ++ chunk.take (min (contentLength - file.length) chunk.length) ++ buf' =
        file ++ buf ++ chunk := by
  have hbuf : buf = [] := by
    by_contra hne
    exact absurd (h.2 hne) (by omega)
  subst hbuf
  refine ⟨_, rfl, ?_⟩
  split
  next hover =>
    have htake : min (contentLength - file.length) chunk.length = contentLength - file.length := by
      omega
    rw [htake, List.nil_append, List.append_nil]
    refine ⟨⟨?_, fun _ => ?_⟩, ?_⟩
    · rw [List.length_append, List.length_take]
      omega
    · rw [List.length_append, List.length_take]
      omega
    · rw [List.append_assoc, List.take_append_drop]
  next hall =>
    have htake : min (contentLength - file.length) chunk.length = chunk.length := by omega
    rw [htake, List.take_length, List.append_nil, List.append_nil]
    refine ⟨⟨?_, fun hne => absurd rfl hne⟩, rfl⟩
    rw [List.length_append]
    omega

theorem spoolRest_some {contentLength : Nat} {file buf file' buf' : Bytes}
    {reads reads' : List Chunk} (hs : Spooling contentLength file buf)
    (h : spoolRest contentLength file buf reads = some (file', buf', reads')) :
    file'.length = contentLength ∧
      file' ++ (buf' ++ received reads') = file ++ buf ++ received reads := by
  induction reads generalizing file buf with
  | nil =>
    unfold spoolRest at h
    split at h
    next hle =>
      cases h
      exact ⟨Nat.le_antisymm hs.1 hle, (List.append_assoc ..).symm⟩
    next => cases h
  | cons chunk reads ih =>
    unfold spoolRest at h
    split at h
    next hle =>
      cases h
      exact ⟨Nat.le_antisymm hs.1 hle, (List.append_assoc ..).symm⟩
    next hlt =>
      obtain ⟨buf₁, hbuf, hs₁, hbytes⟩ := hs.step chunk.val (Nat.lt_of_not_le hlt)
      dsimp only at h
      rw [hbuf] at h
      obtain ⟨hlen, heq⟩ := ih hs₁ h
      refine ⟨hlen, ?_⟩
      rw [heq, hbytes, append_received_cons]

theorem spoolRest_none {contentLength : Nat} {file buf : Bytes} {reads : List Chunk}
    (hs : Spooling contentLength file buf) (h : spoolRest contentLength file buf reads = none) :
    (file ++ buf ++ received reads).length < contentLength := by
  induction reads generalizing file buf with
  | nil =>
    unfold spoolRest at h
    split at h
    next => cases h
    next hlt =>
      have hbuf : buf = [] := by
        by_contra hne
        exact absurd (hs.2 hne) (by omega)
      subst hbuf
      simp only [received, List.map_nil, List.flatten_nil, List.append_nil]
      omega
  | cons chunk reads ih =>
    unfold spoolRest at h
    split at h
    next => cases h
    next hlt =>
      obtain ⟨buf₁, hbuf, hs₁, hbytes⟩ := hs.step chunk.val (Nat.lt_of_not_le hlt)
      dsimp only at h
      rw [hbuf] at h
      rw [append_received_cons, ← hbytes]
      exact ih hs₁ h

/-- What `spool_body` starts from is the body's share of the buffer, the rest kept aside. -/
theorem spooling_start (headEnd contentLength : Nat) (buf : Bytes) :
    Spooling contentLength ((buf.drop headEnd).take (min contentLength (buf.length - headEnd)))
      (buf.drop (headEnd + min contentLength (buf.length - headEnd))) := by
  constructor
  · rw [List.length_take]
    omega
  · intro hne
    rw [Ne, List.drop_eq_nil_iff] at hne
    rw [List.length_take, List.length_drop]
    omega

theorem spooling_start_bytes (headEnd contentLength : Nat) (buf : Bytes) :
    (buf.drop headEnd).take (min contentLength (buf.length - headEnd)) ++
      buf.drop (headEnd + min contentLength (buf.length - headEnd)) = buf.drop headEnd := by
  rw [← List.drop_drop, List.take_append_drop]

theorem spoolBody_some {headEnd contentLength : Nat} {buf file buf' : Bytes}
    {reads reads' : List Chunk} (hle : headEnd ≤ buf.length)
    (h : spoolBody headEnd contentLength buf reads = some (file, buf', reads')) :
    file.length = contentLength ∧
      file ++ (buf' ++ received reads') = (buf ++ received reads).drop headEnd := by
  obtain ⟨hlen, heq⟩ := spoolRest_some (spooling_start headEnd contentLength buf) h
  refine ⟨hlen, ?_⟩
  rw [heq, spooling_start_bytes, List.drop_append_of_le_length hle]

theorem spoolBody_none {headEnd contentLength : Nat} {buf : Bytes} {reads : List Chunk}
    (hle : headEnd ≤ buf.length) (h : spoolBody headEnd contentLength buf reads = none) :
    (buf ++ received reads).length < headEnd + contentLength := by
  have hshort := spoolRest_none (spooling_start headEnd contentLength buf) h
  rw [spooling_start_bytes, ← List.drop_append_of_le_length hle, List.length_drop] at hshort
  rw [List.length_append] at hshort ⊢
  omega

theorem parseHeadInner_plain {buf : Bytes} {request : Request} {headEnd contentLength : Nat}
    (h : parseHeadInner buf = .ok (some (request, headEnd, contentLength))) :
    request.bodySpool = none := by
  obtain ⟨_, _, ⟨_, _, _, _, _, _, _, _, rfl⟩, _⟩ := parseHeadInner_eq_some_iff.mp h
  rfl

theorem cutRequest_eq_some_iff {maxUploadSize : UInt64} {stream rest : Bytes} {seen : Request} :
    cutRequest maxUploadSize stream = some (seen, rest) ↔
      ∃ request headEnd contentLength,
        parseHeadInner stream = .ok (some (request, headEnd, contentLength)) ∧
        contentLength ≤ maxUploadSize.toNat ∧ headEnd + contentLength ≤ stream.length ∧
        seen = { request with body := (stream.drop headEnd).take contentLength } ∧
        rest = stream.drop (headEnd + contentLength) := by
  unfold cutRequest
  split
  next request headEnd contentLength hparse =>
    split
    next hfits =>
      constructor
      · intro h
        obtain ⟨rfl, rfl⟩ := Prod.mk.inj (Option.some.inj h)
        exact ⟨request, headEnd, contentLength, hparse, hfits.1, hfits.2, rfl, rfl⟩
      · rintro ⟨request', headEnd', contentLength', hparse', -, -, rfl, rfl⟩
        rw [hparse] at hparse'
        cases hparse'
        rfl
    next hfits =>
      refine ⟨nofun, ?_⟩
      rintro ⟨request', headEnd', contentLength', hparse', hmax, hlen, -, -⟩
      rw [hparse] at hparse'
      cases hparse'
      exact absurd ⟨hmax, hlen⟩ hfits
  next hparse =>
    refine ⟨nofun, ?_⟩
    rintro ⟨request, headEnd, contentLength, hparse', -⟩
    exact absurd hparse' (hparse request headEnd contentLength)

theorem cutRequest_shorter {maxUploadSize : UInt64} {stream rest : Bytes} {seen : Request}
    (h : cutRequest maxUploadSize stream = some (seen, rest)) : rest.length < stream.length := by
  obtain ⟨request, headEnd, contentLength, hparse, -, hlen, -, rfl⟩ := cutRequest_eq_some_iff.1 h
  have := parseHeadInner_bounds hparse
  rw [List.length_drop]
  omega

/-- A request read from a connection is the first of the bytes in the buffer and on the way, and
the bytes behind it are left. -/
theorem readRequest_some {upload : UploadConfig} {temp : TempFiles} {served : UInt32}
    {buf buf' : Bytes} {reads reads' : List Chunk} {dispatched : Dispatched} {consumed : Nat}
    (h : readRequest upload temp served buf reads = some (dispatched, consumed, buf', reads')) :
    cutRequest upload.maxUploadSize (buf ++ received reads) =
      some (dispatched.seen, buf'.drop consumed ++ received reads') := by
  obtain ⟨⟨⟨request, headEnd, contentLength⟩, buf₁, reads₁⟩, hhead, h⟩ := Option.bind_eq_some_iff.mp h
  obtain ⟨hparse, hle, hbytes⟩ := awaitHead_some hhead
  have hplain := parseHeadInner_plain hparse
  dsimp only at h hle
  split at h
  next => cases h
  next hmax =>
    refine cutRequest_eq_some_iff.2
      ⟨request, headEnd, contentLength, hparse, Nat.le_of_not_lt hmax, ?_⟩
    rw [← hbytes]
    split at h
    next =>
      obtain ⟨⟨buf₂, reads₂⟩, hbody, h⟩ := Option.bind_eq_some_iff.mp h
      obtain ⟨hthere, hbytes₂⟩ := awaitBody_some hbody
      cases h
      rw [← hbytes₂]
      refine ⟨?_, ?_, ?_⟩
      · rw [List.length_append]
        omega
      · simp only [Dispatched.seen, hplain]
        rw [List.take_drop, List.take_append_of_le_length hthere]
      · rw [List.drop_append_of_le_length hthere]
    next =>
      split at h
      next =>
        obtain ⟨⟨file, buf₂, reads₂⟩, hspool, h⟩ := Option.bind_eq_some_iff.mp h
        obtain ⟨hlen, hbytes₂⟩ := spoolBody_some hle hspool
        cases h
        have hcount := congrArg List.length hbytes₂
        rw [List.length_append, List.length_drop, hlen] at hcount
        refine ⟨?_, ?_, ?_⟩
        · have := (parseHeadInner_bounds hparse).2
          rw [← hbytes] at this
          omega
        · simp only [Dispatched.seen, ← hbytes₂, List.take_left' hlen, hplain]
        · rw [← List.drop_drop, ← hbytes₂, List.drop_left' hlen, List.drop_zero]
      next => cases h

/-- Where the disk takes the bodies, no request is read only where the bytes begin with none. -/
theorem readRequest_none {upload : UploadConfig} {temp : TempFiles} {served : UInt32}
    {buf : Bytes} {reads : List Chunk} (hdisk : temp.written served = true)
    (h : readRequest upload temp served buf reads = none) :
    cutRequest upload.maxUploadSize (buf ++ received reads) = none := by
  rw [Option.eq_none_iff_forall_ne_some]
  rintro ⟨seen, rest⟩ hcut
  obtain ⟨request, headEnd, contentLength, hparse, hmax, hlen, -, -⟩ :=
    cutRequest_eq_some_iff.1 hcut
  cases hhead : awaitHead buf reads with
  | none => exact awaitHead_none hhead _ hparse
  | some found =>
    obtain ⟨head, buf₁, reads₁⟩ := found
    obtain ⟨hparse₁, hle, hbytes⟩ := awaitHead_some hhead
    rw [hparse] at hparse₁
    cases hparse₁
    rw [← hbytes] at hlen
    simp only [readRequest, hhead, Option.bind_eq_bind, Option.bind_some,
      if_neg (Nat.not_lt.mpr hmax), hdisk, if_true] at h
    split at h
    next =>
      cases hbody : awaitBody (headEnd + contentLength) buf₁ reads₁ with
      | none => exact absurd (awaitBody_none hbody) (Nat.not_lt.mpr hlen)
      | some found =>
        rw [hbody] at h
        cases h
    next =>
      cases hspool : spoolBody headEnd contentLength buf₁ reads₁ with
      | none => exact absurd (spoolBody_none hle hspool) (Nat.not_lt.mpr hlen)
      | some found =>
        rw [hspool] at h
        cases h

/-- What a connection is served with. The shutdown and the success of a write are looked at after
the request of that number. -/
structure Server where
  keepAlive : KeepAliveConfig
  peer : Option SocketAddr
  stopping : UInt32 → Bool
  answered : UInt32 → Request → Bool

def Dispatched.stamp (peer : Option SocketAddr) (dispatched : Dispatched) : Dispatched :=
  { dispatched with request := { dispatched.request with remoteAddr := peer } }

/-- The connection is read on after the answer to its request number `served`. -/
def Server.goesOn (server : Server) (served : UInt32) (request : Request) : Bool :=
  persists server.keepAlive request served (server.stopping served) &&
    server.answered served request

/-- The requests that `serve_connection` hands to the dispatcher. -/
@[semireducible] def serve (server : Server) (upload : UploadConfig) (temp : TempFiles)
    (served : UInt32) (buf : Bytes) (reads : List Chunk) : List Dispatched :=
  match _h : readRequest upload temp served buf reads with
  | none => []
  | some (dispatched, consumed, buf', reads') =>
    let dispatched := dispatched.stamp server.peer
    dispatched :: if server.goesOn (served + 1) dispatched.seen then
      serve server upload temp (served + 1) (buf'.drop consumed) reads' else []
termination_by (buf ++ received reads).length
decreasing_by exact cutRequest_shorter (readRequest_some _h)

/-- The requests of a stream of bytes, one behind the other. -/
@[semireducible] def requestsOf (server : Server) (maxUploadSize : UInt64) (served : UInt32)
    (stream : Bytes) : List Request :=
  match _h : cutRequest maxUploadSize stream with
  | none => []
  | some (request, rest) =>
    let request := { request with remoteAddr := server.peer }
    request :: if server.goesOn (served + 1) request then
      requestsOf server maxUploadSize (served + 1) rest else []
termination_by stream.length
decreasing_by exact cutRequest_shorter _h

theorem requestsOf_none {server : Server} {maxUploadSize : UInt64} {served : UInt32}
    {stream : Bytes} (h : cutRequest maxUploadSize stream = none) :
    requestsOf server maxUploadSize served stream = [] := by
  rw [requestsOf]
  split
  next => rfl
  next heq =>
    rw [h] at heq
    cases heq

theorem requestsOf_some {server : Server} {maxUploadSize : UInt64} {served : UInt32}
    {stream rest : Bytes} {request : Request}
    (h : cutRequest maxUploadSize stream = some (request, rest)) :
    requestsOf server maxUploadSize served stream =
      { request with remoteAddr := server.peer } ::
        if server.goesOn (served + 1) { request with remoteAddr := server.peer } then
          requestsOf server maxUploadSize (served + 1) rest else [] := by
  rw [requestsOf]
  split
  next heq =>
    rw [h] at heq
    cases heq
  next heq =>
    rw [h] at heq
    cases heq
    rfl

/-- What is dispatched are the requests of the stream, however it arrives and wherever the bodies
are kept. -/
theorem serve_eq (server : Server) (upload : UploadConfig) {temp : TempFiles}
    (hdisk : ∀ served, temp.written served = true) (served : UInt32) (buf : Bytes)
    (reads : List Chunk) :
    (serve server upload temp served buf reads).map Dispatched.seen =
      requestsOf server upload.maxUploadSize served (buf ++ received reads) := by
  induction hn : (buf ++ received reads).length using Nat.strongRecOn
    generalizing served buf reads with
  | _ n ih =>
    subst hn
    rw [serve]
    split
    next hnone => rw [requestsOf_none (readRequest_none (hdisk served) hnone), List.map_nil]
    next dispatched consumed buf' reads' hsome =>
      have hcut := readRequest_some hsome
      have hrest := ih _ (cutRequest_shorter hcut) (served + 1) (buf'.drop consumed) reads' rfl
      rw [requestsOf_some hcut, List.map_cons, ← hrest]
      exact congrArg₂ List.cons rfl (apply_ite (List.map Dispatched.seen) _ _ _)

/-- Neither the cut of the stream into reads nor the size up to which a body stays in memory shows
in the requests dispatched, and behind each body the bytes left are those of the next request. -/
theorem dispatch_independent (server : Server) (maxUploadSize : UInt64) {temp temp' : TempFiles}
    (hdisk : ∀ served, temp.written served = true)
    (hdisk' : ∀ served, temp'.written served = true) :
    (∀ inMemory inMemory' reads reads', received reads = received reads' →
      (serve server ⟨inMemory, maxUploadSize⟩ temp 0 [] reads).map Dispatched.seen =
        (serve server ⟨inMemory', maxUploadSize⟩ temp' 0 [] reads').map Dispatched.seen) ∧
    (∀ inMemory served buf reads dispatched consumed buf' reads',
      readRequest ⟨inMemory, maxUploadSize⟩ temp served buf reads =
        some (dispatched, consumed, buf', reads') →
      ∃ request headEnd contentLength,
        parseHeadInner (buf ++ received reads) = .ok (some (request, headEnd, contentLength)) ∧
        dispatched.seen = { request with
          body := ((buf ++ received reads).drop headEnd).take contentLength } ∧
        dispatched.seen.body.length = contentLength ∧
        buf'.drop consumed ++ received reads' =
          (buf ++ received reads).drop (headEnd + contentLength)) := by
  refine ⟨fun inMemory inMemory' reads reads' hreads => ?_, ?_⟩
  · rw [serve_eq server _ hdisk, serve_eq server _ hdisk', hreads]
  · intro inMemory served buf reads dispatched consumed buf' reads' hread
    obtain ⟨request, headEnd, contentLength, hparse, -, hlen, hseen, hrest⟩ :=
      cutRequest_eq_some_iff.mp (readRequest_some hread)
    refine ⟨request, headEnd, contentLength, hparse, hseen, ?_, hrest⟩
    rw [hseen, List.length_take, List.length_drop]
    omega

/-- A server that keeps its connections and a disk that takes every body. -/
def openServer : Server := ⟨⟨true, 1000⟩, none, fun _ => false, fun _ _ => true⟩

def openDisk : TempFiles := ⟨fun _ => "upload".toList, fun _ => true⟩

def postBytes : Bytes := encodeUtf8 "POST /a HTTP/1.1\r\nContent-Length: 2\r\n\r\nhi".toList

def getBytes : Bytes := encodeUtf8 "GET /b HTTP/1.1\r\n\r\n".toList

theorem postBytes_ne : postBytes ≠ [] := by decide

theorem getBytes_ne : getBytes ≠ [] := by decide

theorem dispatch_independent_pipelined :
    (serve openServer ⟨0, 100⟩ openDisk 0 [] [⟨postBytes ++ getBytes, by simp [postBytes_ne]⟩]).map
        Dispatched.seen =
      (serve openServer ⟨8, 100⟩ openDisk 0 [] [⟨postBytes, postBytes_ne⟩, ⟨getBytes, getBytes_ne⟩]).map
        Dispatched.seen :=
  (dispatch_independent openServer 100 (fun _ => rfl) (fun _ => rfl)).1 0 8 _ _ (by
    simp [received])

end Kernway
