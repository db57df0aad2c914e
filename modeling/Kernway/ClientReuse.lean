import Kernway.ClientStream

namespace Kernway.HttpClient

/-- A connection with these reads is put back into the pool with the rest of them still to come. -/
inductive PutBack : BodyReader → List Chunk → List Chunk → Prop
  | buffered {decode : ContentEncoding → Bytes → Except Text Bytes} {maxIdlePerHost : Nat}
      {conn after kept : Conn} {response : Response} {keepable : Bool}
      (hread : readResponse decode conn = .ok (response, keepable, after))
      (hkept : maybeReturn maxIdlePerHost after keepable response = some kept) :
      PutBack .buffered conn.reads kept.reads
  | streamed {maxIdlePerHost : Nat} {conn kept : Conn} {stream : ResponseStream}
      (hreach : (streamSystem maxIdlePerHost conn).Reachable stream)
      (hkept : stream.pooled = some kept) : PutBack .streamed conn.reads kept.reads

theorem putBack_left {reader : BodyReader} {reads rest : List Chunk}
    (h : PutBack reader reads rest) : ∃ done, reads = done ++ rest ∧
      (First (Taken reader) done ∨ reader = .streamed ∧
        ∃ head body, parsedHead (received done) = some (head, body) ∧
          Malformed (bodyPlan head) body) := by
  cases h with
  | buffered hread hkept =>
    unfold maybeReturn at hkept
    dsimp only at hkept
    split at hkept
    next hkeep =>
      cases hkept
      obtain ⟨-, rfl, -⟩ := hkeep
      obtain ⟨done, hreads, hfirst⟩ := readResponse_eq_ok hread
      exact ⟨done, hreads, .inl hfirst⟩
    next => cases hkept
  | @streamed _ conn kept stream hreach hkept =>
    have hstands := ResponseStream.reachable_stands hreach
    unfold ResponseStream.Stands at hstands
    split at hstands
    next =>
      rw [hstands.2] at hkept
      cases hkept
    next =>
      obtain ⟨done, hreads, hleft⟩ := hstands kept hkept
      exact ⟨done, hreads, hleft.imp_right fun hmalformed => ⟨rfl, hmalformed⟩⟩

theorem atBoundary_iff {method : Method} {done rest : List Chunk} :
    AtBoundary method (done ++ rest) rest ↔ Message method (received done) := by
  constructor
  · rintro ⟨message, hmessage, hsplit⟩
    rw [received_append] at hsplit
    rwa [List.append_cancel_right hsplit]
  · intro h
    exact ⟨received done, h, received_append done rest⟩

theorem endsAtBoundary_iff {method : Method} {reader : BodyReader} {done rest : List Chunk}
    (h : First (Taken reader) done) :
    EndsAtBoundary method reader (done ++ rest) ↔ Message method (received done) := by
  constructor
  · rintro ⟨done', rest', hreads, hfirst, hmessage⟩
    have heq : done = done' := by
      apply h.unique hfirst (List.prefix_append done rest)
      rw [hreads]
      exact List.prefix_append done' rest'
    rwa [heq]
  · intro hmessage
    exact ⟨done, rest, rfl, h, hmessage⟩

theorem Trailers.findCrlf_ne_none {bytes : Bytes} (h : Trailers bytes) : findCrlf bytes ≠ none := by
  cases h with
  | blank => decide
  | field hline hfield hmore =>
    rw [findCrlf_line hline]
    nofun

theorem pull_error_of_begins {bytes body : Bytes} {e : ChunkError} (hbegins : bytes <+: body)
    (hpull : ChunkDecoder.pull .size body = .error e) (out left : Bytes) :
    ChunkDecoder.pull .size bytes ≠ .ok (.done, out, left) := by
  intro hdone
  obtain ⟨ext, rfl⟩ := hbegins
  rw [ChunkDecoder.pull_append, hdone] at hpull
  simp only [Except.bind, ChunkDecoder.resume, ChunkDecoder.pull_done] at hpull
  cases hpull

/-- With malformed chunks nothing more of a body, and nothing less, comes to its end. -/
theorem not_ended_of_malformed {bytes body rest : Bytes} {e : ChunkError}
    (hpull : ChunkDecoder.pull .size body = .error e) (hbegins : bytes <+: body ∨ body <+: bytes)
    (hended : Ended bytes rest) : findCrlf rest = none := by
  by_contra hline
  obtain ⟨out, left, hdone⟩ := pull_done_iff.mpr ⟨rest, hended, hline⟩
  rcases hbegins with hshort | hlong
  · exact pull_error_of_begins hshort hpull out left hdone
  · obtain ⟨ext, rfl⟩ := hlong
    rw [pull_error_append hpull ext] at hdone
    cases hdone

theorem not_message_of_malformed {method : Method} {bytes body : Bytes} {head : Head}
    (hparsed : parsedHead bytes = some (head, body)) (hmalformed : Malformed (bodyPlan head) body) :
    ¬ Message method bytes := by
  rintro ⟨head', body', hparsed', hbody⟩
  rw [hparsed] at hparsed'
  obtain ⟨rfl, rfl⟩ := Prod.mk.inj (Option.some.inj hparsed')
  unfold IsBody at hbody
  cases hplan : bodyPlan head with
  | chunked =>
    rw [hplan] at hmalformed hbody
    obtain ⟨e, hpull⟩ := hmalformed
    split at hbody
    next =>
      rw [hbody, ChunkDecoder.pull_nil] at hpull
      cases hpull
    next =>
      obtain ⟨rest, hended, htrailers⟩ := hbody
      exact htrailers.findCrlf_ne_none (not_ended_of_malformed hpull (.inl List.prefix_rfl) hended)
  | length n =>
    rw [hplan] at hmalformed
    exact hmalformed
  | untilClose =>
    rw [hplan] at hmalformed
    exact hmalformed

theorem body_begins {bytes bytes' body body' : Bytes} {head head' : Head}
    (h : parsedHead bytes = some (head, body)) (h' : parsedHead bytes' = some (head', body'))
    (hbegins : bytes <+: bytes') : head = head' ∧ body <+: body' := by
  obtain ⟨ext, rfl⟩ := hbegins
  rw [parsedHead_append h ext] at h'
  obtain ⟨rfl, rfl⟩ := Prod.mk.inj (Option.some.inj h')
  exact ⟨rfl, List.prefix_append body ext⟩

theorem received_begins {before done : List Chunk} (h : before <+: done) :
    received before <+: received done := by
  obtain ⟨more, rfl⟩ := h
  rw [received_append]
  exact List.prefix_append (received before) (received more)

theorem not_endsAtBoundary_of_malformed {method : Method} {done rest : List Chunk} {body : Bytes}
    {head : Head} (hparsed : parsedHead (received done) = some (head, body))
    (hmalformed : Malformed (bodyPlan head) body) :
    ¬ EndsAtBoundary method .streamed (done ++ rest) := by
  rintro ⟨done', rest', hreads, ⟨⟨head', body', hparsed', htaken⟩, -⟩, -⟩
  have hdone : done <+: done' ++ rest' := by
    rw [← hreads]
    exact List.prefix_append done rest
  have hplace : head = head' ∧ (body' <+: body ∨ body <+: body') := by
    rcases List.prefix_or_prefix_of_prefix hdone (List.prefix_append done' rest') with hle | hle
    · obtain ⟨hhead, hbody⟩ := body_begins hparsed hparsed' (received_begins hle)
      exact ⟨hhead, .inr hbody⟩
    · obtain ⟨hhead, hbody⟩ := body_begins hparsed' hparsed (received_begins hle)
      exact ⟨hhead.symm, .inl hbody⟩
  obtain ⟨rfl, hbegins⟩ := hplace
  cases hplan : bodyPlan head with
  | chunked =>
    rw [hplan] at hmalformed htaken
    obtain ⟨e, hpull⟩ := hmalformed
    obtain ⟨left, hended, hline⟩ := htaken
    exact hline rfl (not_ended_of_malformed hpull hbegins hended)
  | length n =>
    rw [hplan] at hmalformed
    exact hmalformed
  | untilClose =>
    rw [hplan] at hmalformed
    exact hmalformed

/-- What `roundtrip` puts back is left of the connection that the response was read from. -/
theorem roundtrip_putBack {decode : ContentEncoding → Bytes → Except Text Bytes}
    {maxIdlePerHost : Nat} {taken : Option Conn} {dialed : Except HttpError Conn}
    {response : Response} {kept : Conn}
    (h : roundtrip decode maxIdlePerHost taken dialed = .ok (response, some kept)) :
    ∃ conn, (taken = some conn ∨ dialed = .ok conn) ∧ PutBack .buffered conn.reads kept.reads := by
  obtain ⟨⟨response', keepable, after⟩, hread, h⟩ := bind_eq_ok_iff.mp h
  obtain ⟨rfl, hkept⟩ := Prod.mk.inj (Except.ok.inj h)
  have hdialed : dialed >>= readResponse decode = .ok (response', keepable, after) →
      ∃ conn, dialed = .ok conn ∧ PutBack .buffered conn.reads kept.reads := by
    intro hread
    obtain ⟨conn, hconn, hread⟩ := bind_eq_ok_iff.mp hread
    exact ⟨conn, hconn, .buffered hread hkept⟩
  cases taken with
  | none =>
    obtain ⟨conn, hconn, hput⟩ := hdialed hread
    exact ⟨conn, .inr hconn, hput⟩
  | some conn =>
    unfold exchange at hread
    split at hread
    next hanswered =>
      cases hread
      exact ⟨conn, .inl rfl, .buffered (Option.some.inj hanswered) hkept⟩
    next =>
      split at hread
      next =>
        obtain ⟨conn', hconn, hput⟩ := hdialed hread
        exact ⟨conn', .inr hconn, hput⟩
      next => cases hread
    next hnone => cases hnone

def keptReads : Except HttpError (Response × Option Conn) → Option (List Chunk)
  | .ok (_, kept) => kept.map Conn.reads
  | .error _ => none

def noDecoder (_ : ContentEncoding) (body : Bytes) : Except Text Bytes := .ok body

theorem putBack_of_keptReads (conn : Conn) {rest : List Chunk}
    (h : keptReads (roundtrip noDecoder 8 none (.ok conn)) = some rest) :
    PutBack .buffered conn.reads rest := by
  cases hround : roundtrip noDecoder 8 none (.ok conn) with
  | error e =>
    rw [hround] at h
    cases h
  | ok answered =>
    obtain ⟨response, kept⟩ := answered
    rw [hround] at h
    obtain ⟨kept, rfl, rfl⟩ := Option.map_eq_some_iff.mp h
    obtain ⟨conn', hconn, hput⟩ := roundtrip_putBack hround
    cases hconn with
    | inl hnone => cases hnone
    | inr hdialed =>
      cases hdialed
      exact hput

def exactLength : Chunk :=
  ⟨encodeUtf8 "HTTP/1.1 200 OK\r\nContent-Length: 2\r\n\r\nok".toList, by decide⟩

def nextStatus : Chunk := ⟨encodeUtf8 "HTTP/1.1 404".toList, by decide⟩

def lastChunkRead : Chunk :=
  ⟨encodeUtf8 "HTTP/1.1 200 OK\r\nTransfer-Encoding: chunked\r\n\r\n0\r\n".toList, by decide⟩

def finalCrlfRead : Chunk := ⟨[13, 10], List.cons_ne_nil _ _⟩

end Kernway.HttpClient
