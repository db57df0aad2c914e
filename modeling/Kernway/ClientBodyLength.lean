import Kernway.ClientFraming

namespace Kernway.HttpClient

/-- `read_response` up to the body as it was sent, before it is inflated. -/
def readFramed (conn : Conn) : Except HttpError (Head × Bytes × Bool × List Chunk) := do
  let (head, leftover, reads) ← readHead conn
  let (body, keepable, reads) ← readBody (bodyPlan head) { conn with reads } leftover
  return (head, body, keepable, reads)

theorem readResponse_eq (decode : ContentEncoding → Bytes → Except Text Bytes) (conn : Conn) :
    readResponse decode conn = (readFramed conn).bind fun framed =>
      (decompress decode { framed.1 with body := framed.2.1 }).map fun response =>
        (response, framed.2.2.1, { conn with reads := framed.2.2.2 }) := by
  unfold readResponse readFramed
  cases readHead conn with
  | error e => rfl
  | ok found =>
    obtain ⟨head, leftover, reads⟩ := found
    show (readBody (bodyPlan head) { conn with reads } leftover).bind _ =
      ((readBody (bodyPlan head) { conn with reads } leftover).bind _).bind _
    cases readBody (bodyPlan head) { conn with reads } leftover with
    | error e => rfl
    | ok answer =>
      show (decompress decode _).bind _ = (decompress decode _).map _
      cases decompress decode { head with body := answer.1 } <;> rfl

/-- The body that is returned and the bytes that are consumed are those that RFC 9112 prescribes for
the head, and an error is returned where it prescribes none. -/
def LengthPrescribed (method : Method) (conn : Conn) : Prop :=
  match readFramed conn with
  | .ok (head, body, _, reads) => ∃ done used, conn.reads = done ++ reads ∧
      parsedHead (received done) = some (head, used) ∧
      Prescribed (conn.failure = none) (framing method head) used (received reads) body
  | .error _ => ∀ head after, parsedHead (received conn.reads) = some (head, after) →
      ¬ ∃ used rest body, after = used ++ rest ∧
        Prescribed (conn.failure = none) (framing method head) used rest body

/-- All that the plan waits for comes. -/
def Arrives (conn : Conn) (plan : BodyPlan) (after : Bytes) : Prop :=
  match plan with
  | .length n => n ≤ after.length
  | .chunked => ∃ rest, Ended after rest
  | .untilClose => conn.failure = none

/-- The plan for a response and the reads that bring it suit what RFC 9112 prescribes. -/
inductive Suited (method : Method) (conn : Conn) (head : Head) (after : Bytes) : Prop
  /-- The reads end with the last byte of the length. -/
  | length {n : Nat} {done rest : List Chunk} {used : Bytes}
      (hframing : framing method head = .length n) (hplan : bodyPlan head = .length n)
      (hreads : conn.reads = done ++ rest) (hdone : parsedHead (received done) = some (head, used))
      (hused : used.length = n)
  /-- The line of the zero-size chunk comes with the end of the trailers. -/
  | chunked {done rest : List Chunk} {used body : Bytes}
      (hframing : framing method head = .chunked) (hplan : bodyPlan head = .chunked)
      (hreads : conn.reads = done ++ rest) (hdone : parsedHead (received done) = some (head, used))
      (hfirst : First (Taken .buffered) done) (hbody : ChunkedBody used body)
  | untilClose (hframing : framing method head = .untilClose) (hplan : bodyPlan head = .untilClose)
      (hclosed : conn.failure = none)
  /-- No body, a length of zero, and a read that ends with the head. -/
  | bodiless {done rest : List Chunk} (hframing : framing method head = .bodiless)
      (hplan : bodyPlan head = .length 0) (hreads : conn.reads = done ++ rest)
      (hdone : parsedHead (received done) = some (head, []))
  | bodilessClosed (hframing : framing method head = .bodiless)
      (hplan : bodyPlan head = .untilClose) (hclosed : conn.failure = none) (hafter : after = [])
  /-- One of the two gives a length, and the connection is closed after it. -/
  | lengthClosed {n : Nat}
      (hframes : framing method head = .length n ∧ bodyPlan head = .untilClose ∨
        framing method head = .untilClose ∧ bodyPlan head = .length n)
      (hclosed : conn.failure = none) (hafter : after.length = n)
  /-- The first bytes of the chunks are the body that they stand for. -/
  | undecoded {n : Nat} {done rest : List Chunk} {used : Bytes}
      (hframing : framing method head = .chunked) (hplan : bodyPlan head = .length n)
      (hreads : conn.reads = done ++ rest) (hdone : parsedHead (received done) = some (head, used))
      (hfirst : First (Taken .buffered) done) (hbody : ChunkedBody used (used.take n))
  /-- The response is not complete, and not for the plan either. -/
  | incomplete (hplan : ¬ Arrives conn (bodyPlan head) after)
      (hframing : ¬ ∃ used rest body, after = used ++ rest ∧
        Prescribed (conn.failure = none) (framing method head) used rest body)

/-- What `read_response` ends with after these reads, and what it makes of the bytes after the
head. -/
def Completes (conn : Conn) (plan : BodyPlan) (done rest : List Chunk) (used body : Bytes) : Prop :=
  match plan with
  | .length n => n ≤ used.length ∧ body = used.take n ∧ First (Taken .buffered) done
  | .chunked => decodeChunked used = .ok (some body) ∧ First (Taken .buffered) done
  | .untilClose => rest = [] ∧ conn.failure = none ∧ body = used

theorem readFramed_eq_ok {conn : Conn} {head : Head} {body : Bytes} {keepable : Bool}
    {reads : List Chunk} (h : readFramed conn = .ok (head, body, keepable, reads)) :
    ∃ done used, conn.reads = done ++ reads ∧ parsedHead (received done) = some (head, used) ∧
      Completes conn (bodyPlan head) done reads used body := by
  obtain ⟨⟨head', leftover, reads'⟩, hhead, h⟩ := bind_eq_ok_iff.mp h
  obtain ⟨⟨body', keepable', reads''⟩, hbody, h⟩ := bind_eq_ok_iff.mp h
  cases h
  obtain ⟨start, hstart, hdone⟩ := readHead_eq_ok hhead
  cases hplan : bodyPlan head with
  | length n =>
    rw [hplan] at hbody
    obtain ⟨⟨whole, rest⟩, hread, heq⟩ := bind_eq_ok_iff.mp hbody
    cases heq
    obtain ⟨more, hmore, htaken, hbefore⟩ := readBody_eq_ok hdone.fits hbody
    obtain ⟨more', hmore', hanswer, -, -⟩ := readUntil_eq_ok hread
    obtain rfl : more = more' := List.append_cancel_right (hmore.symm.trans hmore')
    rw [← hplan] at htaken hbefore
    refine ⟨start ++ more, leftover ++ received more, ?_, ?_, ?_, ?_, hdone.first htaken hbefore⟩
    · rw [hstart, List.append_assoc]
      exact congrArg (start ++ ·) hmore
    · rw [received_append]
      exact parsedHead_append hdone.parsed _
    · rw [hplan] at htaken
      exact htaken
    · have htake := Except.ok.inj hanswer
      split at htake
      next => cases htake
      next => exact (Option.some.inj htake).symm
  | chunked =>
    rw [hplan] at hbody
    obtain ⟨⟨whole, rest⟩, hread, heq⟩ := bind_eq_ok_iff.mp hbody
    cases heq
    obtain ⟨more, hmore, htaken, hbefore⟩ := readBody_eq_ok hdone.fits hbody
    obtain ⟨more', hmore', hanswer, -, -⟩ := readUntil_eq_ok hread
    obtain rfl : more = more' := List.append_cancel_right (hmore.symm.trans hmore')
    rw [← hplan] at htaken hbefore
    refine ⟨start ++ more, leftover ++ received more, ?_, ?_, ?_, hdone.first htaken hbefore⟩
    · rw [hstart, List.append_assoc]
      exact congrArg (start ++ ·) hmore
    · rw [received_append]
      exact parsedHead_append hdone.parsed _
    · cases hdecode : decodeChunked (leftover ++ received more) with
      | error e =>
        rw [hdecode] at hanswer
        cases hanswer
      | ok answer =>
        rw [hdecode] at hanswer
        rw [Except.ok.inj hanswer]
  | untilClose =>
    rw [hplan] at hbody
    obtain ⟨whole, hread, heq⟩ := bind_eq_ok_iff.mp hbody
    cases heq
    refine ⟨conn.reads, leftover ++ received reads', (List.append_nil _).symm, ?_, rfl, ?_⟩
    · rw [hstart, received_append]
      exact parsedHead_append hdone.parsed _
    · unfold readToClose at hread
      dsimp only at hread
      split at hread
      next => cases hread
      next hclosed =>
        split at hread
        next => cases hread
        next => exact ⟨hclosed, (Except.ok.inj hread).symm⟩

/-- Where reading fails no beginning of the reads gave an answer, unless one gave an error. -/
theorem readUntil_eq_error {α ε : Type} {answer : Bytes → Except ε (Option α)} {closed full e : ε}
    {buf : Bytes} {reads : List Chunk} (h : readUntil answer closed full buf reads = .error e)
    (hfits : (buf ++ received reads).length < capacity) :
    (∀ done, done <+: reads → ∀ a, answer (buf ++ received done) ≠ .ok (some a)) ∨
      ∃ done e', done <+: reads ∧ answer (buf ++ received done) = .error e' := by
  have hnil : buf ++ received [] = buf := List.append_nil buf
  induction reads generalizing buf with
  | nil =>
    unfold readUntil at h
    split at h
    next e' hanswer => exact .inr ⟨[], e', List.nil_prefix, by rwa [hnil]⟩
    next => cases h
    next hanswer =>
      refine .inl ?_
      intro done hdone a
      rw [List.prefix_nil.mp hdone, hnil, hanswer]
      nofun
  | cons chunk reads ih =>
    unfold readUntil at h
    split at h
    next e' hanswer => exact .inr ⟨[], e', List.nil_prefix, by rwa [hnil]⟩
    next => cases h
    next hanswer =>
      dsimp only at h
      rw [append_received_cons] at hfits
      split at h
      next hfull =>
        rw [List.length_append] at hfits
        omega
      next =>
        rcases ih h hfits (List.append_nil _) with hnone | ⟨done, e', hdone, herror⟩
        · refine .inl ?_
          intro done hdone a
          cases done with
          | nil =>
            rw [hnil, hanswer]
            nofun
          | cons c done =>
            obtain ⟨rfl, htail⟩ := List.cons_prefix_cons.mp hdone
            rw [append_received_cons]
            exact hnone done htail a
        · refine .inr ⟨chunk :: done, e', List.cons_prefix_cons.mpr ⟨rfl, hdone⟩, ?_⟩
          rwa [append_received_cons]

/-- Where the head cannot be read there is none at the front of the stream. -/
theorem parsedHead_of_error {conn : Conn} {e : HttpError} (h : readHead conn = .error e)
    (hfits : (received conn.reads).length < capacity) : parsedHead (received conn.reads) = none := by
  rcases bind_eq_error_iff.mp h with hread | ⟨⟨⟨block, leftover⟩, reads⟩, hread, hparse⟩
  · rcases readUntil_eq_error hread hfits with hnone | ⟨done, e', -, herror⟩
    · have hall := hnone conn.reads List.prefix_rfl
      cases hsplit : splitHead (received conn.reads) with
      | none => rw [parsedHead, hsplit]
      | some parts => exact absurd (congrArg Except.ok hsplit) (hall parts)
    · cases herror
  · obtain ⟨done, hreads, hsplit, -, -⟩ := readUntil_eq_ok hread
    have hblock : splitHead (received done) = some (block, leftover) := Except.ok.inj hsplit
    rw [hreads, received_append, parsedHead, splitHead_append hblock]
    rcases bind_eq_error_iff.mp hparse with hparse | ⟨head, -, hnone⟩
    · simp only [hparse]
    · cases hnone

theorem parsedHead_length {bytes body : Bytes} {head : Head}
    (h : parsedHead bytes = some (head, body)) : body.length ≤ bytes.length := by
  unfold parsedHead at h
  split at h
  next => cases h
  next block rest hsplit =>
    split at h
    next =>
      cases h
      obtain ⟨pos, -, hcut⟩ := Option.map_eq_some_iff.mp hsplit
      obtain ⟨-, rfl⟩ := Prod.mk.inj hcut
      rw [List.length_drop]
      omega
    next => cases h

theorem not_arrives_of_error {conn : Conn} {e : HttpError} (h : readFramed conn = .error e)
    (hfits : (received conn.reads).length < capacity) {head : Head} {after : Bytes}
    (hparsed : parsedHead (received conn.reads) = some (head, after)) :
    ¬ Arrives conn (bodyPlan head) after := by
  have hafter := lt_of_le_of_lt (parsedHead_length hparsed) hfits
  rcases bind_eq_error_iff.mp h with hhead | ⟨⟨head', leftover, reads⟩, hhead, hbody⟩
  · rw [parsedHead_of_error hhead hfits] at hparsed
    cases hparsed
  obtain ⟨start, hstart, hdone⟩ := readHead_eq_ok hhead
  have hsame := parsedHead_append hdone.parsed (received reads)
  rw [← received_append, ← hstart, hparsed] at hsame
  obtain ⟨rfl, rfl⟩ := Prod.mk.inj (Option.some.inj hsame)
  rcases bind_eq_error_iff.mp hbody with hread | ⟨answer, -, hnone⟩
  swap
  · cases hnone
  intro harrives
  cases hplan : bodyPlan head with
  | length n =>
    rw [hplan] at hread harrives
    rcases bind_eq_error_iff.mp hread with hread | ⟨answer, -, hnone⟩
    · rcases readUntil_eq_error hread hafter with hnone | ⟨done, e', -, herror⟩
      · refine hnone reads List.prefix_rfl ((leftover ++ received reads).take n) ?_
        rw [if_neg (Nat.not_lt.mpr harrives)]
      · cases herror
    · cases hnone
  | chunked =>
    rw [hplan] at hread harrives
    obtain ⟨decoded, hdecode⟩ := (decodeChunked_iff hafter).mpr harrives
    rcases bind_eq_error_iff.mp hread with hread | ⟨answer, -, hnone⟩
    · rcases readUntil_eq_error hread hafter with hnone | ⟨done, e', ⟨more, hmore⟩, herror⟩
      · refine hnone reads List.prefix_rfl decoded ?_
        rw [hdecode]
        rfl
      · -- a size that overruns still does with all of the body
        have hmore : done ++ more = reads := hmore
        have hshort : (leftover ++ received done).length < capacity := by
          rw [← hmore, received_append, ← List.append_assoc, List.length_append] at hafter
          omega
        rcases ended_or_undecoded hshort with hended | hnone | hover
        · obtain ⟨body, hbody⟩ := (decodeChunked_iff hshort).mpr hended
          rw [hbody] at herror
          cases herror
        · rw [hnone] at herror
          cases herror
        · have hall := hover.append (received more)
          rw [List.append_assoc, ← received_append, hmore] at hall
          rw [hall.decodeChunked_eq hafter] at hdecode
          cases hdecode
    · cases hnone
  | untilClose =>
    rw [hplan] at hread harrives
    rcases bind_eq_error_iff.mp hread with hread | ⟨answer, -, hnone⟩
    · unfold readToClose at hread
      split at hread
      next e' hfailure =>
        have hclosed : conn.failure = none := harrives
        cases hclosed.symm.trans hfailure
      next =>
        split at hread
        next hfull => exact absurd hafter (Nat.not_lt.mpr hfull)
        next => cases hread
    · cases hnone

theorem received_eq_nil {reads : List Chunk} (h : received reads = []) : reads = [] := by
  cases reads with
  | nil => rfl
  | cons chunk reads =>
    rw [received_cons] at h
    exact absurd (List.append_eq_nil_iff.mp h).1 chunk.property

/-- The reads that first come to a property are a beginning of all that come to it. -/
theorem prefix_of_first {p : Bytes → Prop} {done done' reads : List Chunk} (h : First p done)
    (h' : p (received done')) (hdone : done <+: reads) (hdone' : done' <+: reads) :
    done <+: done' := by
  rcases List.prefix_or_prefix_of_prefix hdone hdone' with hle | hle
  · exact hle
  · by_cases heq : done' = done
    · rw [heq]
    · exact absurd h' (h.2 done' hle heq)

/-- Reads that end with the last byte of a length are the first that bring it. -/
theorem eq_of_first_exact {done done' reads : List Chunk} {head : Head} {n : Nat}
    {used used' : Bytes} (h : First (Taken .buffered) done) (hplan : bodyPlan head = .length n)
    (hdone : parsedHead (received done) = some (head, used)) (hused : n ≤ used.length)
    (hdone' : parsedHead (received done') = some (head, used')) (hused' : used'.length = n)
    (hreads : done <+: reads) (hreads' : done' <+: reads) : done = done' ∧ used = used' := by
  have htaken : Taken .buffered (received done') := by
    refine ⟨head, used', hdone', ?_⟩
    rw [hplan]
    exact Nat.le_of_eq hused'.symm
  obtain ⟨more, rfl⟩ := prefix_of_first h htaken hreads hreads'
  rw [received_append, parsedHead_append hdone] at hdone'
  obtain ⟨-, rfl⟩ := Prod.mk.inj (Option.some.inj hdone')
  rw [List.length_append] at hused'
  have hmore : received more = [] := List.eq_nil_of_length_eq_zero (by omega)
  rw [received_eq_nil hmore, List.append_nil, received, List.map_nil, List.flatten_nil,
    List.append_nil]
  exact ⟨rfl, rfl⟩

/-- A response that is read as RFC 9112 prescribes suits it. -/
theorem suited_of_completes {method : Method} {conn : Conn} {head : Head}
    {done rest : List Chunk} {used body : Bytes} (hfits : (received conn.reads).length < capacity)
    (hreads : conn.reads = done ++ rest) (hdone : parsedHead (received done) = some (head, used))
    (hcompletes : Completes conn (bodyPlan head) done rest used body)
    (hprescribed : Prescribed (conn.failure = none) (framing method head) used (received rest)
      body) : Suited method conn head (used ++ received rest) := by
  have hused : used.length < capacity := by
    have := parsedHead_length hdone
    rw [hreads, received_append, List.length_append] at hfits
    omega
  cases hplan : bodyPlan head with
  | length n =>
    rw [hplan] at hcompletes
    obtain ⟨hlength, hbody, hfirst⟩ := hcompletes
    cases hframing : framing method head with
    | bodiless =>
      rw [hframing] at hprescribed
      obtain ⟨rfl, -⟩ := hprescribed
      obtain rfl : n = 0 := Nat.le_zero.mp hlength
      exact .bodiless hframing hplan hreads hdone
    | length m =>
      rw [hframing] at hprescribed
      obtain ⟨hm, rfl⟩ := hprescribed
      have htake := congrArg List.length hbody
      rw [List.length_take] at htake
      obtain rfl : m = n := by omega
      exact .length hframing hplan hreads hdone hm
    | chunked =>
      rw [hframing] at hprescribed
      rw [hbody] at hprescribed
      exact .undecoded hframing hplan hreads hdone hfirst hprescribed
    | untilClose =>
      rw [hframing] at hprescribed
      obtain ⟨hrest, hclosed, rfl⟩ := hprescribed
      have htake := congrArg List.length hbody
      rw [List.length_take] at htake
      refine .lengthClosed (.inr ⟨hframing, hplan⟩) hclosed ?_
      rw [hrest, List.append_nil]
      omega
    | invalid =>
      rw [hframing] at hprescribed
      exact hprescribed.elim
  | chunked =>
    rw [hplan] at hcompletes
    obtain ⟨hdecode, hfirst⟩ := hcompletes
    have hshorter := length_lt_of_decodeChunked hused hdecode
    cases hframing : framing method head with
    | bodiless =>
      rw [hframing] at hprescribed
      obtain ⟨rfl, -⟩ := hprescribed
      exact absurd hshorter (Nat.not_lt_zero _)
    | length m =>
      rw [hframing] at hprescribed
      obtain ⟨-, rfl⟩ := hprescribed
      exact absurd hshorter (Nat.lt_irrefl _)
    | chunked =>
      rw [hframing] at hprescribed
      exact .chunked hframing hplan hreads hdone hfirst hprescribed
    | untilClose =>
      rw [hframing] at hprescribed
      obtain ⟨-, -, rfl⟩ := hprescribed
      exact absurd hshorter (Nat.lt_irrefl _)
    | invalid =>
      rw [hframing] at hprescribed
      exact hprescribed.elim
  | untilClose =>
    rw [hplan] at hcompletes
    obtain ⟨rfl, hclosed, rfl⟩ := hcompletes
    have hrest : body ++ received [] = body := List.append_nil body
    cases hframing : framing method head with
    | bodiless =>
      rw [hframing] at hprescribed
      exact .bodilessClosed hframing hplan hclosed (by rw [hrest]; exact hprescribed.1)
    | length m =>
      rw [hframing] at hprescribed
      exact .lengthClosed (.inl ⟨hframing, hplan⟩) hclosed (by rw [hrest]; exact hprescribed.1)
    | chunked =>
      rw [hframing] at hprescribed
      exact absurd hprescribed.length_lt (Nat.lt_irrefl _)
    | untilClose => exact .untilClose hframing hplan hclosed
    | invalid =>
      rw [hframing] at hprescribed
      exact hprescribed.elim

/-- A response that suits RFC 9112 is read as it prescribes. -/
theorem prescribed_of_suited {method : Method} {conn : Conn} {head : Head}
    {done rest : List Chunk} {used body : Bytes} (hreads : conn.reads = done ++ rest)
    (hdone : parsedHead (received done) = some (head, used))
    (hcompletes : Completes conn (bodyPlan head) done rest used body)
    (hsuited : Suited method conn head (used ++ received rest)) :
    Prescribed (conn.failure = none) (framing method head) used (received rest) body := by
  have hprefix : done <+: conn.reads := ⟨rest, hreads.symm⟩
  cases hsuited with
  | @length n done' rest' used' hframing hplan hreads' hdone' hused =>
    rw [hplan] at hcompletes
    obtain ⟨hlength, rfl, hfirst⟩ := hcompletes
    obtain ⟨-, rfl⟩ := eq_of_first_exact hfirst hplan hdone hlength hdone' hused hprefix
      ⟨rest', hreads'.symm⟩
    rw [hframing]
    exact ⟨hused, List.take_of_length_le (Nat.le_of_eq hused)⟩
  | @chunked done' rest' used' body' hframing hplan hreads' hdone' hfirst' hbody =>
    rw [hplan] at hcompletes
    obtain ⟨hdecode, hfirst⟩ := hcompletes
    obtain rfl := hfirst.unique hfirst' hprefix ⟨rest', hreads'.symm⟩
    rw [hdone] at hdone'
    obtain ⟨-, rfl⟩ := Prod.mk.inj (Option.some.inj hdone')
    rw [hframing, hbody.decodeChunkedFrom_eq hdecode]
    exact hbody
  | untilClose hframing hplan hclosed =>
    rw [hplan] at hcompletes
    obtain ⟨rfl, -, rfl⟩ := hcompletes
    rw [hframing]
    exact ⟨rfl, hclosed, rfl⟩
  | @bodiless done' rest' hframing hplan hreads' hdone' =>
    rw [hplan] at hcompletes
    obtain ⟨hlength, rfl, hfirst⟩ := hcompletes
    obtain ⟨-, rfl⟩ := eq_of_first_exact hfirst hplan hdone hlength hdone' rfl hprefix
      ⟨rest', hreads'.symm⟩
    rw [hframing]
    exact ⟨rfl, rfl⟩
  | bodilessClosed hframing hplan hclosed hafter =>
    rw [hplan] at hcompletes
    obtain ⟨-, -, rfl⟩ := hcompletes
    have hused := (List.append_eq_nil_iff.mp hafter).1
    rw [hframing]
    exact ⟨hused, hused⟩
  | @lengthClosed n hframes hclosed hafter =>
    rcases hframes with ⟨hframing, hplan⟩ | ⟨hframing, hplan⟩
    · rw [hplan] at hcompletes
      obtain ⟨rfl, -, rfl⟩ := hcompletes
      rw [hframing]
      refine ⟨?_, rfl⟩
      rw [← hafter]
      exact congrArg List.length (List.append_nil body).symm
    · rw [hplan] at hcompletes
      obtain ⟨hlength, rfl, -⟩ := hcompletes
      rw [List.length_append] at hafter
      rw [hframing]
      refine ⟨List.eq_nil_of_length_eq_zero (by omega), hclosed, ?_⟩
      exact List.take_of_length_le (by omega)
  | @undecoded n done' rest' used' hframing hplan hreads' hdone' hfirst' hbody =>
    rw [hplan] at hcompletes
    obtain ⟨-, rfl, hfirst⟩ := hcompletes
    obtain rfl := hfirst.unique hfirst' hprefix ⟨rest', hreads'.symm⟩
    rw [hdone] at hdone'
    obtain ⟨-, rfl⟩ := Prod.mk.inj (Option.some.inj hdone')
    rw [hframing]
    exact hbody
  | incomplete hplan hframing =>
    -- the plan has got all that it waits for
    refine absurd ?_ hplan
    cases hbody : bodyPlan head with
    | length n =>
      rw [hbody] at hcompletes
      show n ≤ (used ++ received rest).length
      rw [List.length_append]
      exact Nat.le_add_right_of_le hcompletes.1
    | chunked =>
      rw [hbody] at hcompletes
      obtain ⟨⟨head', body', hparsed, htaken⟩, -⟩ := hcompletes.2
      rw [hdone] at hparsed
      obtain ⟨rfl, rfl⟩ := Prod.mk.inj (Option.some.inj hparsed)
      rw [hbody] at htaken
      obtain ⟨left, hended, -⟩ := htaken
      exact ⟨left ++ received rest, hended.append (received rest)⟩
    | untilClose =>
      rw [hbody] at hcompletes
      exact hcompletes.2.1

/-- All that the plan waits for comes in a response that suits it, or the response is incomplete. -/
theorem Suited.arrives {method : Method} {conn : Conn} {head : Head} {after : Bytes}
    (h : Suited method conn head after)
    (hparsed : parsedHead (received conn.reads) = some (head, after)) :
    Arrives conn (bodyPlan head) after ∨ ¬ ∃ used rest body, after = used ++ rest ∧
      Prescribed (conn.failure = none) (framing method head) used rest body := by
  have hbehind : ∀ {done rest : List Chunk} {used : Bytes}, conn.reads = done ++ rest →
      parsedHead (received done) = some (head, used) → after = used ++ received rest := by
    intro done rest used hreads hdone
    rw [hreads, received_append, parsedHead_append hdone] at hparsed
    exact (Prod.mk.inj (Option.some.inj hparsed)).2.symm
  cases h with
  | @length n done rest used hframing hplan hreads hdone hused =>
    refine .inl ?_
    rw [hplan, hbehind hreads hdone]
    show n ≤ (used ++ received rest).length
    rw [List.length_append]
    omega
  | @chunked done rest used body hframing hplan hreads hdone hfirst hbody =>
    obtain ⟨head', used', hparsed', htaken⟩ := hfirst.1
    rw [hdone] at hparsed'
    obtain ⟨rfl, rfl⟩ := Prod.mk.inj (Option.some.inj hparsed')
    rw [hplan] at htaken
    obtain ⟨left, hended, -⟩ := htaken
    refine .inl ?_
    rw [hplan, hbehind hreads hdone]
    exact ⟨left ++ received rest, hended.append (received rest)⟩
  | untilClose hframing hplan hclosed =>
    rw [hplan]
    exact .inl hclosed
  | bodiless hframing hplan hreads hdone =>
    rw [hplan]
    exact .inl (Nat.zero_le _)
  | bodilessClosed hframing hplan hclosed hafter =>
    rw [hplan]
    exact .inl hclosed
  | lengthClosed hframes hclosed hafter =>
    rcases hframes with ⟨-, hplan⟩ | ⟨-, hplan⟩
    · rw [hplan]
      exact .inl hclosed
    · rw [hplan]
      exact .inl (Nat.le_of_eq hafter.symm)
  | @undecoded n done rest used hframing hplan hreads hdone hfirst hbody =>
    obtain ⟨head', used', hparsed', htaken⟩ := hfirst.1
    rw [hdone] at hparsed'
    obtain ⟨rfl, rfl⟩ := Prod.mk.inj (Option.some.inj hparsed')
    rw [hplan] at htaken
    refine .inl ?_
    rw [hplan, hbehind hreads hdone]
    show n ≤ (used ++ received rest).length
    rw [List.length_append]
    exact Nat.le_add_right_of_le htaken
  | incomplete hplan hframing => exact .inr hframing

/-- `read_response` returns the body that RFC 9112 prescribes, having consumed what it prescribes, if
and only if the plan that it makes of the head and the reads suit it. -/
theorem lengthPrescribed_iff (method : Method) (conn : Conn)
    (hfits : (received conn.reads).length < capacity) : LengthPrescribed method conn ↔
      ∀ head after, parsedHead (received conn.reads) = some (head, after) →
        Suited method conn head after := by
  unfold LengthPrescribed
  cases hread : readFramed conn with
  | error e =>
    dsimp only
    constructor
    · intro h head after hparsed
      exact .incomplete (not_arrives_of_error hread hfits hparsed) (h head after hparsed)
    · intro h head after hparsed
      have hnot := not_arrives_of_error hread hfits hparsed
      exact ((h head after hparsed).arrives hparsed).resolve_left hnot
  | ok answer =>
    obtain ⟨head, body, keepable, reads⟩ := answer
    obtain ⟨done, used, hreads, hdone, hcompletes⟩ := readFramed_eq_ok hread
    have hparsed : parsedHead (received conn.reads) = some (head, used ++ received reads) := by
      rw [hreads, received_append]
      exact parsedHead_append hdone (received reads)
    dsimp only
    constructor
    · rintro ⟨done', used', hreads', hdone', hprescribed⟩ head' after hparsed'
      obtain rfl := List.append_cancel_right (hreads.symm.trans hreads')
      rw [hdone] at hdone'
      obtain ⟨-, rfl⟩ := Prod.mk.inj (Option.some.inj hdone')
      rw [hparsed] at hparsed'
      obtain ⟨rfl, rfl⟩ := Prod.mk.inj (Option.some.inj hparsed')
      exact suited_of_completes hfits hreads hdone hcompletes hprescribed
    · intro hsuited
      exact ⟨done, used, hreads, hdone,
        prescribed_of_suited hreads hdone hcompletes (hsuited head _ hparsed)⟩

theorem framed_ne_nil :
    encodeUtf8 "HTTP/1.1 200 OK\r\nContent-Length: 2\r\n\r\nok".toList ≠ [] := by
  decide

def framedRead : Chunk := ⟨_, framed_ne_nil⟩

theorem lengthPrescribed_framed : LengthPrescribed .get { reads := [framedRead] } := by
  have hparsed : (parsedHead (received [framedRead])).map (fun parsed =>
      (parsed.2.length, framing .get parsed.1, bodyPlan parsed.1)) =
        some (2, .length 2, .length 2) := by
    decide +kernel
  refine (lengthPrescribed_iff .get { reads := [framedRead] } (by decide)).mpr ?_
  intro head after hhead
  have hparts := hhead ▸ hparsed
  obtain ⟨hlength, hframing, hplan⟩ : after.length = 2 ∧ framing .get head = .length 2 ∧
      bodyPlan head = .length 2 := by simpa using hparts
  exact .length hframing hplan (List.append_nil _).symm hhead hlength

def headRead : Chunk :=
  ⟨encodeUtf8 "HTTP/1.1 200 OK\r\nContent-Length: 2\r\n\r\n".toList, by decide⟩

/-- The answer to a `HEAD` request is complete with its head, and the client waits for a body. -/
theorem not_lengthPrescribed :
    ¬ LengthPrescribed .head { reads := [headRead], failure := some .timeout } := by
  intro h
  have hfails : (readFramed { reads := [headRead], failure := some .timeout }).toOption.isNone =
      true := by
    decide +kernel
  have hparsed : (parsedHead (received [headRead])).map (fun parsed =>
      (parsed.2, framing .head parsed.1)) = some ([], .bodiless) := by
    decide +kernel
  unfold LengthPrescribed at h
  cases hread : readFramed { reads := [headRead], failure := some .timeout } with
  | ok answer =>
    rw [hread] at hfails
    cases hfails
  | error e =>
    rw [hread] at h
    obtain ⟨⟨head, after⟩, hhead, hparts⟩ := Option.map_eq_some_iff.mp hparsed
    obtain ⟨rfl, hframing⟩ := Prod.mk.inj hparts
    refine h head [] hhead ⟨[], [], [], rfl, ?_⟩
    rw [hframing]
    exact ⟨rfl, rfl⟩

end Kernway.HttpClient
