import Kernway.ChunkedBody
import Kernway.ClientRedirect
import Kernway.ReadUntil
import Kernway.Runs

namespace Kernway.HttpClient

inductive HttpError
  | protocol (message : Text)
  /-- A socket error. It is stale where the connection was reset, aborted or at its end. -/
  | io (stale : Bool)
  | timeout
  | panicked

def HttpError.ofChunk : ChunkError → HttpError
  | .protocol message => .protocol message
  | .panicked => .panicked

/-- A connection as what is still to be read of it: the reads that bring bytes, and the error of the
read after them, without one the end of the stream. -/
structure Conn where
  reads : List Chunk
  failure : Option HttpError := none

/-- The position of the first `needle`. -/
def findSeq (needle : Bytes) : Bytes → Option Nat
  | [] => if needle = [] then some 0 else none
  | b :: rest => if needle <+: b :: rest then some 0 else (findSeq needle rest).map (· + 1)

def headerTerminator : Bytes := [13, 10, 13, 10]

/-- The head block with its terminator, and the bytes read alongside it. -/
def splitHead (buf : Bytes) : Option (Bytes × Bytes) :=
  (findSeq headerTerminator buf).map fun pos => (buf.take (pos + 4), buf.drop (pos + 4))

/-- The code from a status line, the token after the version. -/
def parseStatus (line : Bytes) : Except HttpError UInt16 :=
  match (do
    let (_, rest) ← cutAt 32 line
    parseU16 (← decodeUtf8 (rest.takeWhile (· ≠ 32)))) with
  | some status => .ok status
  | none => .error (.protocol "bad status line".toList)

/-- What `trim_range` narrows a line to. -/
def trimRange (bytes : Bytes) : Bytes :=
  let blank (b : UInt8) : Bool := b = 32 || b = 9
  (bytes.dropWhile blank).rdropWhile blank

/-- The loop of `parse_head_spans` over the lines after the status line. -/
@[semireducible] def headFields (bytes : Bytes) : List (Bytes × Bytes) :=
  match _h : findCrlf bytes with
  | none => []
  | some 0 => []
  | some (i + 1) =>
    let fields := headFields (bytes.drop (i + 1 + 2))
    match cutAt 58 (bytes.take (i + 1)) with
    | some (name, value) => (trimRange name, trimRange value) :: fields
    | none => fields
termination_by bytes.length
decreasing_by
  have := findCrlf_bounds _h
  rw [List.length_drop]
  omega

def parseHeadSpans (block : Bytes) : Except HttpError Head :=
  match findCrlf block with
  | none => .error (.protocol "no status line".toList)
  | some lineEnd =>
    (parseStatus (block.take lineEnd)).map fun status => ⟨status, headFields (block.drop (lineEnd + 2))⟩

def ignoreCaseEq (bytes : Bytes) (token : Text) : Bool :=
  bytes.map asciiLowerByte == (encodeUtf8 token).map asciiLowerByte

inductive BodyPlan
  | length (n : Nat)
  | chunked
  | untilClose
  deriving DecidableEq

def bodyPlan (head : Head) : BodyPlan :=
  if (head.headerBytes "transfer-encoding".toList).any (ignoreCaseEq · "chunked".toList) then .chunked
  else
    match (do parseUsize (trim (← decodeUtf8 (← head.headerBytes "content-length".toList)))) with
    | some n => .length n
    | none => .untilClose

/-- The response head, the bytes read alongside it, and the reads that are left. -/
def readHead (conn : Conn) : Except HttpError (Head × Bytes × List Chunk) := do
  let closed := conn.failure.getD (.protocol "connection closed before headers completed".toList)
  let ((block, leftover), reads) ←
    readUntil (fun buf => .ok (splitHead buf)) closed .panicked [] conn.reads
  let head ← parseHeadSpans block
  return (head, leftover, reads)

structure Response extends Head where
  body : Bytes

/-- What `while read_more_into(..) {}` ends with. -/
def readToClose (conn : Conn) (body : Bytes) : Except HttpError Bytes :=
  match conn.failure with
  | some e => .error e
  | none =>
    if capacity ≤ (body ++ received conn.reads).length then .error .panicked
    else .ok (body ++ received conn.reads)

/-- The part of `read_response` after the head: the body, whether it was framed, and the reads that
are left. -/
def readBody (plan : BodyPlan) (conn : Conn) (body : Bytes) :
    Except HttpError (Bytes × Bool × List Chunk) :=
  match plan with
  | .length n => do
    let closed := conn.failure.getD (.protocol "connection closed mid-body".toList)
    let answer (body : Bytes) := .ok (if body.length < n then none else some (body.take n))
    let (body, reads) ← readUntil answer closed .panicked body conn.reads
    return (body, true, reads)
  | .chunked => do
    let closed := conn.failure.getD (.protocol "connection closed mid-chunk".toList)
    let answer (body : Bytes) := (decodeChunked body).mapError .ofChunk
    let (body, reads) ← readUntil answer closed .panicked body conn.reads
    return (body, true, reads)
  | .untilClose => do
    let body ← readToClose conn body
    return (body, false, [])

inductive ContentEncoding
  | identity
  | gzip
  | deflate
  | br
  deriving DecidableEq

def ContentEncoding.fromToken (token : Text) : Option ContentEncoding :=
  let token := toAsciiLowercase (trim token)
  if token = "identity".toList ∨ token = [] then some .identity
  else if token = "gzip".toList ∨ token = "x-gzip".toList then some .gzip
  else if token = "deflate".toList then some .deflate
  else if token = "br".toList then some .br
  else none

/-- Inflates a body by its `Content-Encoding`, with the decoders of the compression libraries. -/
def decompress (decode : ContentEncoding → Bytes → Except Text Bytes) (response : Response) :
    Except HttpError Response :=
  match (response.header "content-encoding".toList).bind ContentEncoding.fromToken with
  | none => .ok response
  | some .identity => .ok response
  | some encoding =>
    match decode encoding response.body with
    | .error message => .error (.protocol message)
    | .ok body =>
      let fields := response.fields.filter fun field =>
        !ignoreCaseEq field.1 "content-encoding".toList &&
          !ignoreCaseEq field.1 "content-length".toList
      .ok { response with body, fields }

section Buffered

variable (decode : ContentEncoding → Bytes → Except Text Bytes)

def readResponse (conn : Conn) : Except HttpError (Response × Bool × Conn) := do
  let (head, leftover, reads) ← readHead conn
  let (body, keepable, reads) ← readBody (bodyPlan head) { conn with reads } leftover
  let response ← decompress decode { head with body }
  return (response, keepable, { conn with reads })

def maybeReturn (maxIdlePerHost : Nat) (conn : Conn) (keepable : Bool) (response : Response) :
    Option Conn :=
  let close := (response.header "connection".toList).any (eqIgnoreAsciiCase · "close".toList)
  if 0 < maxIdlePerHost ∧ keepable ∧ !close then some conn else none

def isStale : HttpError → Bool
  | .io stale => stale
  | .protocol message => containsText message "closed before headers".toList
  | _ => false

/-- The response on the connection of the pool, and where there is none or it is stale on a new one.
A connection on which the request cannot be written has no reads. -/
def exchange (taken : Option Conn) (dialed : Except HttpError Conn) :
    Except HttpError (Response × Bool × Conn) :=
  match taken.map (readResponse decode) with
  | some (.ok answered) => .ok answered
  | some (.error e) => if isStale e then dialed >>= readResponse decode else .error e
  | none => dialed >>= readResponse decode

/-- The response, and the connection when it is put back. -/
def roundtrip (maxIdlePerHost : Nat) (taken : Option Conn) (dialed : Except HttpError Conn) :
    Except HttpError (Response × Option Conn) := do
  let (response, keepable, conn) ← exchange decode taken dialed
  return (response, maybeReturn maxIdlePerHost conn keepable response)

end Buffered

inductive StreamPlan
  | length (rem : Nat)
  | chunked (state : ChunkState)
  | untilClose

def StreamPlan.new : BodyPlan → StreamPlan
  | .length n => .length n
  | .chunked => .chunked .size
  | .untilClose => .untilClose

/-- A streamed response; `pooled` is the connection after `finish` has returned it to the pool. -/
structure ResponseStream where
  head : Head
  conn : Option Conn
  buf : Bytes
  plan : StreamPlan
  maxIdlePerHost : Nat
  close : Bool
  pooled : Option Conn := none

namespace ResponseStream

/-- `send_streaming` after the request is written. -/
def new (maxIdlePerHost : Nat) (conn : Conn) : Except HttpError ResponseStream := do
  let (head, leftover, reads) ← readHead conn
  return {
    head
    conn := some { conn with reads }
    buf := leftover
    plan := .new (bodyPlan head)
    maxIdlePerHost
    close := (head.headerBytes "connection".toList).any (ignoreCaseEq · "close".toList) }

/-- What a single pass over the buffered bytes produced. -/
inductive Step
  | yield (part : Bytes)
  | done (keepable : Bool)
  | needMore (error : Text)

def isDone : ChunkState → Bool
  | .done => true
  | _ => false

/-- The `match` of `chunk` on the plan. A malformed chunk leaves the decoder before a size line and
the buffer as it was. -/
def pass (stream : ResponseStream) : ResponseStream × Except HttpError Step :=
  match stream.plan with
  | .length rem =>
    if rem = 0 then (stream, .ok (.done true))
    else if stream.buf ≠ [] then
      let take := min rem stream.buf.length
      ({ stream with plan := .length (rem - take), buf := stream.buf.drop take },
        .ok (.yield (stream.buf.take take)))
    else (stream, .ok (.needMore "connection closed mid-body".toList))
  | .chunked state =>
    match ChunkDecoder.pull state stream.buf with
    | .error e => ({ stream with plan := .chunked .size }, .error (.ofChunk e))
    | .ok (state, part, buf) =>
      ({ stream with plan := .chunked state, buf },
        .ok (if part ≠ [] then .yield part
          else if isDone state then .done true
          else .needMore "connection closed mid-chunk".toList))
  | .untilClose =>
    if stream.buf ≠ [] then ({ stream with buf := [] }, .ok (.yield stream.buf))
    else (stream, .ok (.needMore []))

def finish (keepable : Bool) (stream : ResponseStream) : ResponseStream :=
  match stream.conn with
  | none => stream
  | some conn =>
    let pooled := if 0 < stream.maxIdlePerHost ∧ keepable ∧ !stream.close then some conn else none
    { stream with conn := none, pooled }

/-- At the end of the stream; only a body that is read to the close ends there. -/
def atEnd (error : Text) (stream : ResponseStream) :
    ResponseStream × Except HttpError (Option Bytes) :=
  match stream.plan with
  | .untilClose => (stream.finish false, .ok none)
  | _ => (stream, .error (.protocol error))

/-- The loop of `chunk` with these reads still to come. The first `limit` of them come before the
idle timeout, and a buffer that cannot grow drops the stream with its connection. -/
def chunkLoop (failure : Option HttpError) (limit : Nat) (stream : ResponseStream)
    (reads : List Chunk) : ResponseStream × Except HttpError (Option Bytes) :=
  let passed := pass { stream with conn := some { reads, failure } }
  match passed.2 with
  | .error e => (passed.1, .error e)
  | .ok (.yield part) => (passed.1, .ok (some part))
  | .ok (.done keepable) => (passed.1.finish keepable, .ok none)
  | .ok (.needMore error) =>
    match limit with
    | 0 => (passed.1, .error .timeout)
    | limit + 1 =>
      match reads with
      | [] =>
        match failure with
        | some e => (passed.1, .error e)
        | none => passed.1.atEnd error
      | chunk :: reads =>
        let buf := passed.1.buf ++ chunk.val
        if capacity ≤ buf.length then ({ passed.1 with conn := none }, .error .panicked)
        else chunkLoop failure limit { passed.1 with buf } reads
termination_by structural reads

def chunk (limit : Nat) (stream : ResponseStream) :
    ResponseStream × Except HttpError (Option Bytes) :=
  match stream.conn with
  | none => (stream, .ok none)
  | some conn => stream.chunkLoop conn.failure limit conn.reads

end ResponseStream

/-- A streamed response on a connection, and the calls of `chunk` on it. -/
def streamSystem (maxIdlePerHost : Nat) (conn : Conn) : System ResponseStream Nat where
  start stream := ResponseStream.new maxIdlePerHost conn = .ok stream
  step stream limit stream' := (stream.chunk limit).1 = stream'

end Kernway.HttpClient
