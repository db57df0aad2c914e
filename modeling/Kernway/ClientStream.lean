import Kernway.ClientBoundary

namespace Kernway.HttpClient

/-- A body whose chunks the incremental decoder refuses. -/
def Malformed (plan : BodyPlan) (body : Bytes) : Prop :=
  match plan with
  | .chunked => ∃ e, ChunkDecoder.pull .size body = .error e
  | _ => False

/-- Where a streamed response stands when these bytes of its body have been read. A malformed chunk
can leave it anywhere. -/
inductive Follows : BodyPlan → Bytes → StreamPlan → Bytes → Prop
  | length {n rem : Nat} {body buf : Bytes} (hrem : body.length + rem = n + buf.length) :
      Follows (.length n) body (.length rem) buf
  | chunked {state : ChunkState} {body buf out : Bytes}
      (hpull : ChunkDecoder.pull .size body =
        (ChunkDecoder.pull state buf).map (decodedFirst out)) :
      Follows .chunked body (.chunked state) buf
  | malformed {state : ChunkState} {body buf : Bytes} {e : ChunkError}
      (hpull : ChunkDecoder.pull .size body = .error e) :
      Follows .chunked body (.chunked state) buf
  | untilClose {body buf : Bytes} : Follows .untilClose body .untilClose buf

theorem pull_error_append {body : Bytes} {e : ChunkError}
    (h : ChunkDecoder.pull .size body = .error e) (ext : Bytes) :
    ChunkDecoder.pull .size (body ++ ext) = .error e := by
  rw [ChunkDecoder.pull_append, h]
  rfl

namespace Follows

theorem new (plan : BodyPlan) (leftover : Bytes) : Follows plan leftover (.new plan) leftover := by
  cases plan with
  | length n => exact .length (Nat.add_comm _ _)
  | chunked => exact .chunked (ChunkDecoder.decodedFirst_nil _).symm
  | untilClose => exact .untilClose

theorem append {plan : BodyPlan} {body buf : Bytes} {streamPlan : StreamPlan}
    (h : Follows plan body streamPlan buf) (ext : Bytes) :
    Follows plan (body ++ ext) streamPlan (buf ++ ext) := by
  cases h with
  | length hrem =>
    apply Follows.length
    rw [List.length_append, List.length_append]
    omega
  | chunked hpull =>
    apply Follows.chunked
    rw [ChunkDecoder.pull_append, hpull, ChunkDecoder.resume_decodedFirst,
      ← ChunkDecoder.pull_append]
  | malformed hpull => exact .malformed (pull_error_append hpull ext)
  | untilClose => exact .untilClose

end Follows

/-- What has been pulled is not pulled again. -/
theorem pull_again {body out : Bytes} {next : ChunkState × Bytes × Bytes}
    (h : ChunkDecoder.pull .size body = .ok (decodedFirst out next)) :
    ChunkDecoder.pull .size body =
      (ChunkDecoder.pull next.1 next.2.2).map (decodedFirst (out ++ next.2.1)) := by
  have happend := ChunkDecoder.pull_append .size body []
  rw [List.append_nil, h] at happend
  rw [h, happend]
  show ChunkDecoder.resume (decodedFirst out next) [] = _
  rw [ChunkDecoder.resume]
  simp only [decodedFirst, List.append_nil]

namespace ResponseStream

/-- A pass works on the plan and the buffer alone. -/
theorem pass_frame (stream : ResponseStream) :
    ∃ plan buf, (pass stream).1 = { stream with plan, buf } := by
  unfold pass
  split
  next =>
    split
    next => exact ⟨_, _, rfl⟩
    next =>
      split
      next => exact ⟨_, _, rfl⟩
      next => exact ⟨_, _, rfl⟩
  next =>
    split
    next => exact ⟨_, _, rfl⟩
    next => exact ⟨_, _, rfl⟩
  next =>
    split
    next => exact ⟨_, _, rfl⟩
    next => exact ⟨_, _, rfl⟩

/-- What a pass says of the bytes of the body that have been read. -/
def Says (plan : BodyPlan) (body : Bytes) : Except HttpError Step → Prop
  | .ok (.done keepable) => keepable = true ∧ (BodyTaken .streamed plan body ∨ Malformed plan body)
  | .ok (.needMore _) => ¬ BodyTaken .streamed plan body
  | _ => True

theorem pass_length {n rem : Nat} {body : Bytes} {stream : ResponseStream}
    (hplan : stream.plan = .length rem) (hrem : body.length + rem = n + stream.buf.length) :
    Follows (.length n) body (pass stream).1.plan (pass stream).1.buf ∧
      Says (.length n) body (pass stream).2 := by
  unfold pass
  rw [hplan]
  dsimp only
  split
  next hzero =>
    rw [hplan]
    refine ⟨.length hrem, rfl, .inl ?_⟩
    show n ≤ body.length
    omega
  next hpos =>
    split
    next hbuf =>
      refine ⟨.length ?_, trivial⟩
      dsimp only
      rw [List.length_drop]
      omega
    next hbuf =>
      rw [hplan]
      refine ⟨.length hrem, ?_⟩
      show ¬ n ≤ body.length
      rw [not_not.mp hbuf, List.length_nil] at hrem
      omega

theorem not_taken_of_malformed {body : Bytes} {e : ChunkError}
    (hpull : ChunkDecoder.pull .size body = .error e) : ¬ BodyTaken .streamed .chunked body := by
  rintro ⟨rest, hended, hline⟩
  obtain ⟨part, left, hdone⟩ := pull_done_iff.mpr ⟨rest, hended, hline rfl⟩
  rw [hdone] at hpull
  cases hpull

theorem taken_iff_of_pull {body part buf : Bytes} {state : ChunkState}
    (hpull : ChunkDecoder.pull .size body = .ok (state, part, buf)) :
    BodyTaken .streamed .chunked body ↔ isDone state = true := by
  have hiff : BodyTaken .streamed .chunked body ↔
      ∃ out left, ChunkDecoder.pull .size body = .ok (.done, out, left) := by
    rw [pull_done_iff]
    exact exists_congr fun rest => and_congr_right fun _ => ⟨fun h => h rfl, fun h _ => h⟩
  rw [hiff, hpull]
  cases state with
  | done => exact ⟨fun _ => rfl, fun _ => ⟨part, buf, rfl⟩⟩
  | _ =>
    constructor
    · rintro ⟨out, left, heq⟩
      cases heq
    · nofun

theorem pass_chunked {state : ChunkState} {body out : Bytes} {stream : ResponseStream}
    (hplan : stream.plan = .chunked state) (hpull : ChunkDecoder.pull .size body =
      (ChunkDecoder.pull state stream.buf).map (decodedFirst out)) :
    Follows .chunked body (pass stream).1.plan (pass stream).1.buf ∧
      Says .chunked body (pass stream).2 := by
  unfold pass
  rw [hplan]
  dsimp only
  split
  next e he =>
    rw [he] at hpull
    exact ⟨.malformed hpull, trivial⟩
  next state' part buf hnext =>
    rw [hnext] at hpull
    refine ⟨.chunked (pull_again hpull), ?_⟩
    have htaken := taken_iff_of_pull hpull
    dsimp only
    split
    next => trivial
    next =>
      split
      next hdone => exact ⟨rfl, .inl (htaken.mpr hdone)⟩
      next hdone => exact fun h => hdone (htaken.mp h)

theorem pass_malformed {state : ChunkState} {body : Bytes} {e : ChunkError}
    {stream : ResponseStream} (hplan : stream.plan = .chunked state)
    (hpull : ChunkDecoder.pull .size body = .error e) :
    Follows .chunked body (pass stream).1.plan (pass stream).1.buf ∧
      Says .chunked body (pass stream).2 := by
  unfold pass
  rw [hplan]
  dsimp only
  split
  next => exact ⟨.malformed hpull, trivial⟩
  next =>
    refine ⟨.malformed hpull, ?_⟩
    dsimp only
    split
    next => trivial
    next =>
      split
      next => exact ⟨rfl, .inr ⟨e, hpull⟩⟩
      next => exact not_taken_of_malformed hpull

theorem pass_follows {plan : BodyPlan} {body : Bytes} {stream : ResponseStream}
    (h : Follows plan body stream.plan stream.buf) :
    Follows plan body (pass stream).1.plan (pass stream).1.buf ∧ Says plan body (pass stream).2 := by
  generalize hplan : stream.plan = streamPlan at h
  generalize hbuf : stream.buf = buf at h
  subst hbuf
  cases h with
  | length hrem => exact pass_length hplan hrem
  | chunked hpull => exact pass_chunked hplan hpull
  | malformed hpull => exact pass_malformed hplan hpull
  | untilClose =>
    unfold pass
    rw [hplan]
    dsimp only
    split
    next => exact ⟨.untilClose, trivial⟩
    next =>
      rw [hplan]
      exact ⟨.untilClose, not_false⟩

/-- Of the reads of a connection these are still to come, and no read before the last one brought
all of the body. -/
def Underway (all : List Chunk) (plan : StreamPlan) (buf : Bytes) (reads : List Chunk) : Prop :=
  ∃ done more head leftover, HeadReads done head leftover ∧ all = done ++ more ++ reads ∧
    Follows (bodyPlan head) (leftover ++ received more) plan buf ∧
    ∀ before, before <+: more → before ≠ more →
      ¬ BodyTaken .streamed (bodyPlan head) (leftover ++ received before)

/-- What a stream can leave to be read of a connection that it puts back. -/
def Left (all rest : List Chunk) : Prop :=
  ∃ done, all = done ++ rest ∧ (First (Taken .streamed) done ∨
    ∃ head body, parsedHead (received done) = some (head, body) ∧ Malformed (bodyPlan head) body)

def Stands (all : List Chunk) (stream : ResponseStream) : Prop :=
  match stream.conn with
  | some conn => Underway all stream.plan stream.buf conn.reads ∧ stream.pooled = none
  | none => ∀ kept, stream.pooled = some kept → Left all kept.reads

theorem finish_false_pooled {stream : ResponseStream} {conn : Conn}
    (hconn : stream.conn = some conn) :
    (stream.finish false).conn = none ∧ (stream.finish false).pooled = none := by
  unfold finish
  rw [hconn]
  exact ⟨rfl, if_neg nofun⟩

theorem stands_finish {all : List Chunk} {stream : ResponseStream} {conn : Conn}
    (hconn : stream.conn = some conn) (hleft : Left all conn.reads) :
    Stands all (stream.finish true) := by
  have hnone : (stream.finish true).conn = none := by
    unfold finish
    rw [hconn]
  unfold Stands
  rw [hnone]
  intro kept hkept
  unfold finish at hkept
  rw [hconn] at hkept
  dsimp only at hkept
  split at hkept
  next =>
    cases hkept
    exact hleft
  next => cases hkept

theorem stands_of_unpooled {all : List Chunk} {stream : ResponseStream}
    (hconn : stream.conn = none) (hpooled : stream.pooled = none) : Stands all stream := by
  unfold Stands
  rw [hconn]
  intro kept hkept
  rw [hpooled] at hkept
  cases hkept

theorem Underway.read {all : List Chunk} {plan : StreamPlan} {buf : Bytes} {chunk : Chunk}
    {reads done more : List Chunk} {head : Head} {leftover : Bytes}
    (hhead : HeadReads done head leftover) (hall : all = done ++ more ++ chunk :: reads)
    (hfollows : Follows (bodyPlan head) (leftover ++ received more) plan buf)
    (hbefore : ∀ before, before <+: more → before ≠ more →
      ¬ BodyTaken .streamed (bodyPlan head) (leftover ++ received before))
    (hmore : ¬ BodyTaken .streamed (bodyPlan head) (leftover ++ received more)) :
    Underway all plan (buf ++ chunk.val) reads := by
  have hchunk : received [chunk] = chunk.val := List.append_nil chunk.val
  refine ⟨done, more ++ [chunk], head, leftover, hhead, ?_, ?_, ?_⟩
  · rw [hall, List.append_assoc, List.append_assoc, List.append_assoc]
    rfl
  · rw [received_append, hchunk, ← List.append_assoc]
    exact hfollows.append chunk.val
  · intro before hle hne
    rcases List.prefix_concat_iff.mp hle with heq | hle
    · exact absurd heq hne
    · by_cases heq : before = more
      · rw [heq]
        exact hmore
      · exact hbefore before hle heq

/-- What a turn of the loop of `chunk` comes to by its pass. -/
structure Turned (all reads : List Chunk) (failure : Option HttpError)
    (passed : ResponseStream × Except HttpError Step) : Prop where
  conn : passed.1.conn = some { reads, failure }
  pooled : passed.1.pooled = none
  underway : Underway all passed.1.plan passed.1.buf reads
  done : ∀ keepable, passed.2 = .ok (.done keepable) → keepable = true ∧ Left all reads
  needMore : ∀ error chunk rest, passed.2 = .ok (.needMore error) → reads = chunk :: rest →
    Underway all passed.1.plan (passed.1.buf ++ chunk.val) rest

theorem Underway.turned {all reads : List Chunk} {stream : ResponseStream}
    (h : Underway all stream.plan stream.buf reads) (hpooled : stream.pooled = none)
    (failure : Option HttpError) :
    Turned all reads failure (pass { stream with conn := some { reads, failure } }) := by
  obtain ⟨done, more, head, leftover, hhead, hall, hfollows, hbefore⟩ := h
  let started : ResponseStream := { stream with conn := some { reads, failure } }
  have hstarted : Follows (bodyPlan head) (leftover ++ received more) started.plan started.buf :=
    hfollows
  obtain ⟨hkept, hsays⟩ := pass_follows hstarted
  obtain ⟨plan, buf, hframe⟩ := pass_frame started
  refine ⟨?_, ?_, ⟨done, more, head, leftover, hhead, hall, hkept, hbefore⟩, ?_, ?_⟩
  · rw [hframe]
  · rw [hframe]
    exact hpooled
  · intro keepable hdone
    rw [hdone] at hsays
    obtain ⟨rfl, htaken | hmalformed⟩ := hsays
    · exact ⟨rfl, done ++ more, hall, .inl (hhead.first htaken hbefore)⟩
    · refine ⟨rfl, done ++ more, hall, .inr ⟨head, leftover ++ received more, ?_, hmalformed⟩⟩
      rw [received_append]
      exact parsedHead_append hhead.parsed _
  · rintro error chunk rest hmore rfl
    rw [hmore] at hsays
    exact Underway.read hhead hall hkept hbefore hsays

theorem Turned.stands {all reads : List Chunk} {failure : Option HttpError}
    {passed : ResponseStream × Except HttpError Step} (h : Turned all reads failure passed) :
    Stands all passed.1 := by
  unfold Stands
  rw [h.conn]
  exact ⟨h.underway, h.pooled⟩

theorem Turned.atEnd {all reads : List Chunk} {failure : Option HttpError}
    {passed : ResponseStream × Except HttpError Step} (h : Turned all reads failure passed)
    (error : Text) : Stands all (passed.1.atEnd error).1 := by
  unfold ResponseStream.atEnd
  split
  next =>
    obtain ⟨hconn, hpooled⟩ := finish_false_pooled h.conn
    exact stands_of_unpooled hconn hpooled
  next => exact h.stands

theorem Turned.done_stands {all reads : List Chunk} {failure : Option HttpError}
    {passed : ResponseStream × Except HttpError Step} (h : Turned all reads failure passed)
    {keepable : Bool} (hdone : passed.2 = .ok (.done keepable)) :
    Stands all (passed.1.finish keepable) := by
  obtain ⟨rfl, hleft⟩ := h.done keepable hdone
  exact stands_finish h.conn hleft

theorem chunkLoop_stands {all reads : List Chunk} {failure : Option HttpError} {limit : Nat}
    {stream : ResponseStream} (h : Underway all stream.plan stream.buf reads)
    (hpooled : stream.pooled = none) :
    Stands all (stream.chunkLoop failure limit reads).1 := by
  induction reads generalizing limit stream with
  | nil =>
    have hturned := h.turned hpooled failure
    unfold chunkLoop
    dsimp only
    split
    next => exact hturned.stands
    next => exact hturned.stands
    next hdone => exact hturned.done_stands hdone
    next =>
      split
      next => exact hturned.stands
      next =>
        split
        next => exact hturned.stands
        next => exact hturned.atEnd _
  | cons chunk reads ih =>
    have hturned := h.turned hpooled failure
    unfold chunkLoop
    dsimp only
    split
    next => exact hturned.stands
    next => exact hturned.stands
    next hdone => exact hturned.done_stands hdone
    next hmore =>
      split
      next => exact hturned.stands
      next =>
        split
        next => exact stands_of_unpooled rfl hturned.pooled
        next => exact ih (hturned.needMore _ _ _ hmore rfl) hturned.pooled

theorem chunk_stands {all : List Chunk} {stream : ResponseStream} (h : Stands all stream)
    (limit : Nat) : Stands all (stream.chunk limit).1 := by
  unfold chunk
  split
  next => exact h
  next conn hconn =>
    unfold Stands at h
    rw [hconn] at h
    exact chunkLoop_stands h.1 h.2

theorem new_stands {maxIdlePerHost : Nat} {conn : Conn} {stream : ResponseStream}
    (h : ResponseStream.new maxIdlePerHost conn = .ok stream) : Stands conn.reads stream := by
  obtain ⟨⟨head, leftover, reads⟩, hhead, h⟩ := bind_eq_ok_iff.mp h
  cases h
  obtain ⟨done, hreads, hdone⟩ := readHead_eq_ok hhead
  have hleftover : leftover ++ received [] = leftover := List.append_nil leftover
  refine ⟨⟨done, [], head, leftover, hdone, ?_, ?_, ?_⟩, rfl⟩
  · rw [hreads, List.append_nil]
  · rw [hleftover]
    exact Follows.new (bodyPlan head) leftover
  · intro before hle hne
    exact absurd (List.prefix_nil.mp hle) hne

theorem step_stands {maxIdlePerHost limit : Nat} {conn : Conn} {stream stream' : ResponseStream}
    (h : Stands conn.reads stream)
    (hstep : (streamSystem maxIdlePerHost conn).step stream limit stream') :
    Stands conn.reads stream' := by
  have hchunk : (stream.chunk limit).1 = stream' := hstep
  rw [← hchunk]
  exact chunk_stands h limit

theorem reachable_stands {maxIdlePerHost : Nat} {conn : Conn} {stream : ResponseStream}
    (h : (streamSystem maxIdlePerHost conn).Reachable stream) : Stands conn.reads stream :=
  @System.Reach.invariant _ _ _ _ (Stands conn.reads) (fun _ hnew => new_stands hnew)
    (fun _ _ _ hstands _ hstep => step_stands hstands hstep) stream h

end ResponseStream

end Kernway.HttpClient
