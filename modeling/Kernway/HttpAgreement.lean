import Kernway.HttpHead
import Kernway.Results

namespace Kernway

/-- The trimmed lines that the reader takes up to the first blank one, and the bytes after it. -/
@[semireducible] def readHead (input : Bytes) : Option (List Text × Bytes) :=
  match _h : readLine input with
  | .error _ => none
  | .ok (line, rest) =>
    if _hb : trim line = [] then some ([], rest)
    else (readHead rest).map fun p => (trim line :: p.1, p.2)
termination_by input.length
decreasing_by exact readLine_decreases _h _hb

alias readHead_eq := readHead.eq_1

alias readHeaders_eq := readHeaders.eq_1

theorem readHead_blank {input rest : Bytes} {line : Text} (h : readLine input = .ok (line, rest))
    (hb : trim line = []) : readHead input = some ([], rest) := by
  rw [readHead_eq]
  split <;> simp_all

theorem readHead_cons {input rest : Bytes} {line : Text} (h : readLine input = .ok (line, rest))
    (hb : trim line ≠ []) :
    readHead input = (readHead rest).map fun p => (trim line :: p.1, p.2) := by
  rw [readHead_eq]
  split <;> simp_all

theorem readHeaders_error {input : Bytes} {e : ParseError} (h : readLine input = .error e)
    (headers : Headers) : readHeaders input headers = .error e := by
  rw [readHeaders_eq]
  split <;> simp_all

theorem readHeaders_blank {input rest : Bytes} {line : Text}
    (h : readLine input = .ok (line, rest)) (hb : trim line = []) (headers : Headers) :
    readHeaders input headers = .ok (headers, rest) := by
  rw [readHeaders_eq]
  split <;> simp_all

theorem readHeaders_cons {input rest : Bytes} {line : Text}
    (h : readLine input = .ok (line, rest)) (hb : trim line ≠ []) (headers : Headers) :
    readHeaders input headers =
      match splitHeader (trim line) with
      | some p => (appendField headers p.1 p.2).bind fun g => readHeaders rest g
      | none => readHeaders rest headers := by
  rw [readHeaders_eq]
  split
  next heq => simp [h] at heq
  next line' rest' heq =>
    obtain ⟨rfl, rfl⟩ := Prod.mk.inj (Except.ok.inj (h.symm.trans heq))
    rw [dif_neg hb]
    cases splitHeader (trim line) with
    | none => rfl
    | some p => cases hp : appendField headers p.1 p.2 <;> simp [hp, Except.bind]

theorem readHeaders_eq_ok_iff {input rest : Bytes} {headers headers' : Headers} :
    readHeaders input headers = .ok (headers', rest) ↔ ∃ ls, readHead input = some (ls, rest) ∧
      appendAll headers (ls.filterMap splitHeader) = .ok headers' := by
  induction hl : input.length using Nat.strongRecOn generalizing input headers with
  | _ l ih =>
    cases h : readLine input with
    | error e =>
      have hn : readHead input = none := by rw [readHead_eq]; split <;> simp_all
      simp [readHeaders_error h, hn]
    | ok p =>
      obtain ⟨line, rest'⟩ := p
      by_cases hb : trim line = []
      · simp [readHeaders_blank h hb, readHead_blank h hb, and_comm, eq_comm]
      · have hlt := readLine_decreases h hb
        have ih' : ∀ {hs}, readHeaders rest' hs = .ok (headers', rest) ↔ ∃ ls,
            readHead rest' = some (ls, rest) ∧
              appendAll hs (ls.filterMap splitHeader) = .ok headers' :=
          ih rest'.length (by omega) rfl
        rw [readHeaders_cons h hb, readHead_cons h hb]
        simp only [Option.map_eq_some_iff, Prod.mk.injEq, Prod.exists]
        cases hs : splitHeader (trim line) with
        | none =>
          simp only [ih']
          constructor
          · rintro ⟨ls, hls, ha⟩
            exact ⟨_, ⟨ls, _, hls, rfl, rfl⟩, by rwa [List.filterMap_cons_none hs]⟩
          · rintro ⟨_, ⟨ls, _, hls, rfl, rfl⟩, ha⟩
            exact ⟨ls, hls, by rwa [List.filterMap_cons_none hs] at ha⟩
        | some q =>
          have happ : ∀ ls, appendAll headers ((trim line :: ls).filterMap splitHeader) =
              (appendField headers q.1 q.2).bind fun g =>
                appendAll g (ls.filterMap splitHeader) := fun ls => by
            rw [List.filterMap_cons_some hs, appendAll_cons]
          cases hq : appendField headers q.1 q.2 with
          | error e => simp [happ, hq, Except.bind]
          | ok g =>
            simp only [hq, Except.bind, ih']
            constructor
            · rintro ⟨ls, hls, ha⟩
              exact ⟨_, ⟨ls, _, hls, rfl, rfl⟩, by simpa only [happ, hq, Except.bind] using ha⟩
            · rintro ⟨_, ⟨ls, _, hls, rfl, rfl⟩, ha⟩
              exact ⟨ls, hls, by simpa only [happ, hq, Except.bind] using ha⟩

/-- What the reader takes as the head: the request line, the fields, and the bytes left. -/
def readerHead (buf : Bytes) : Option (Text × List (Text × Text) × Bytes) :=
  match readLine buf with
  | .error _ => none
  | .ok (line, rest) =>
    (readHead rest).map fun p => (trim line, p.1.filterMap splitHeader, p.2)

theorem readerHead_eq_some_iff {buf rest : Bytes} {line : Text} {fields : List (Text × Text)} :
    readerHead buf = some (line, fields, rest) ↔ ∃ l rest0 ls, readLine buf = .ok (l, rest0) ∧
      readHead rest0 = some (ls, rest) ∧ line = trim l ∧ fields = ls.filterMap splitHeader := by
  unfold readerHead
  cases hl : readLine buf with
  | error e => simp
  | ok p =>
    obtain ⟨l, rest0⟩ := p
    simp only [Option.map_eq_some_iff, Prod.exists, Prod.mk.injEq, Except.ok.injEq]
    constructor
    · rintro ⟨ls, _, h, rfl, rfl, rfl⟩
      exact ⟨l, rest0, ls, ⟨rfl, rfl⟩, h, rfl, rfl⟩
    · rintro ⟨_, _, ls, ⟨rfl, rfl⟩, h, rfl, rfl⟩
      exact ⟨ls, rest, h, rfl, rfl, rfl⟩

theorem readExact_eq_ok_iff {n : Nat} {input body : Bytes} :
    readExact n input = .ok body ↔ n ≤ input.length ∧ body = input.take n := by
  unfold readExact
  split
  next h => simp; omega
  next h => simp [eq_comm, Nat.le_of_not_lt h]

theorem parseFromReader_eq_ok_iff {u : UnicodeCase} {buf : Bytes} {req : Request} :
    parseFromReader u buf = .ok req ↔ ∃ line fields rest r,
      readerHead buf = some (line, fields, rest) ∧ DecodesTo (toUppercase u) line fields r ∧
      declaredLength fields ≤ maxBodyBytes ∧ declaredLength fields ≤ rest.length ∧
      req = { r with body := rest.take (declaredLength fields) } := by
  simp only [readerHead_eq_some_iff]
  constructor
  · intro h
    obtain ⟨⟨line, rest0⟩, hl, h⟩ := bind_eq_ok_iff.mp h
    dsimp only at h
    split at h
    next first target parts hp =>
      obtain ⟨query, hq, h⟩ := bind_eq_ok_iff.mp h
      obtain ⟨⟨headers, rest⟩, hh, h⟩ := bind_eq_ok_iff.mp h
      obtain ⟨ls, hls, ha⟩ := readHeaders_eq_ok_iff.1 hh
      rw [contentLength_eq ha] at h
      split_ifs at h with hmax
      · simp [throw, throwThe, MonadExceptOf.throw, bind, Except.bind] at h
      obtain ⟨body, hb, h⟩ := bind_eq_ok_iff.mp h
      obtain ⟨hlen, rfl⟩ := readExact_eq_ok_iff.1 hb
      exact ⟨trim line, _, rest, _, ⟨line, rest0, ls, hl, hls, rfl, rfl⟩,
        ⟨first, target, parts, query, headers, hp, hq, ha, rfl⟩, Nat.not_lt.mp hmax, hlen,
        (Except.ok.inj h).symm⟩
    next => simp [throw, throwThe, MonadExceptOf.throw] at h
  · rintro ⟨_, _, rest, r, ⟨line, rest0, ls, hl, hls, rfl, rfl⟩,
      ⟨first, target, parts, query, headers, hp, hq, ha, rfl⟩, hc, hb, rfl⟩
    refine bind_eq_ok_iff.mpr ⟨(line, rest0), hl, ?_⟩
    simp only [hp]
    refine bind_eq_ok_iff.mpr ⟨query, hq, bind_eq_ok_iff.mpr ⟨(headers, rest),
      readHeaders_eq_ok_iff.2 ⟨ls, hls, ha⟩, ?_⟩⟩
    dsimp only
    unfold maxBodyBytes at hc
    rw [contentLength_eq ha, if_neg (Nat.not_lt.mpr hc)]
    exact bind_eq_ok_iff.mpr ⟨_, readExact_eq_ok_iff.2 ⟨hb, rfl⟩, rfl⟩

theorem decode_line {buf lb rest : Bytes} {t : Text} {m : Nat} (hc : cutAt 10 buf = some (lb, rest))
    (hm : lb.length + 1 ≤ m) (ht : decodeUtf8 (buf.take m) = some t) :
    ∃ l t', cutAt '\n' t = some (l, t') ∧ encodeUtf8 l = lb ∧
      decodeUtf8 (rest.take (m - (lb.length + 1))) = some t' := by
  obtain ⟨rfl, hn⟩ := cutAt_eq_some_iff.mp hc
  obtain ⟨k, rfl⟩ := Nat.exists_eq_add_of_le hm
  have htake : (lb ++ 10 :: rest).take (lb.length + 1 + k) = lb ++ 10 :: rest.take k := by
    rw [Nat.add_assoc, List.take_length_add_append, Nat.add_comm 1 k, List.take_succ_cons]
  rw [htake, decodeUtf8_eq_some_iff] at ht
  have hcut : cutAt (UInt8.ofNat '\n'.toNat) (encodeUtf8 t) = some (lb, rest.take k) := by
    rw [ht]
    exact cutAt_eq_some_iff.mpr ⟨rfl, hn⟩
  rw [cutAt_encodeUtf8 (by decide), Option.map_eq_some_iff] at hcut
  obtain ⟨⟨l, t'⟩, hlt, heq⟩ := hcut
  obtain ⟨hl, ht'⟩ := Prod.mk.inj heq
  refine ⟨l, t', hlt, hl, ?_⟩
  rw [Nat.add_sub_cancel_left, ← ht', decodeUtf8_encodeUtf8]

theorem lines_of_cutAt {t l t' : Text} (h : cutAt '\n' t = some (l, t')) :
    lines t = stripSuffix '\r' l :: lines t' := by
  rw [lines]
  split <;> simp_all

theorem readLine_of_cutAt {buf rest : Bytes} {l : Text}
    (h : cutAt 10 buf = some (encodeUtf8 l, rest)) : readLine buf = .ok (l ++ ['\n'], rest) := by
  have hd : decodeUtf8 (encodeUtf8 l ++ [10]) = some (l ++ ['\n']) := by
    rw [decodeUtf8_eq_some_iff, encodeUtf8_append]
    rfl
  simp only [readLine, h, hd]

theorem trim_eq_nil_of_stripSuffix {l : Text} (h : stripSuffix 13 (encodeUtf8 l) = []) :
    trim l = [] := by
  unfold stripSuffix at h
  split at h
  next hlast =>
    have heq : encodeUtf8 l = encodeUtf8 ['\r'] := by
      obtain ⟨ys, hys⟩ := List.getLast?_eq_some_iff.mp hlast
      rw [hys, List.dropLast_concat] at h
      rw [hys, h]
      rfl
    rw [encodeUtf8_injective heq]
    decide
  next => rw [encodeUtf8_injective (h.trans encodeUtf8_nil.symm)]; rfl

/-- The two scans see the same lines up to the first blank one; the reader stops there, so what it
has left reaches back from the head's end. -/
theorem readHead_of_findHeadEnd {buf : Bytes} {pos n e k : Nat} {t : Text}
    (h : findHeadEndFrom buf pos n = some (e, k)) (ht : decodeUtf8 (buf.take (e - pos)) = some t) :
    ∃ rest, readHead buf = some (headLines (lines t), rest) ∧ buf.drop (e - pos) <:+ rest := by
  induction hl : buf.length using Nat.strongRecOn generalizing buf pos n t with
  | _ len ih =>
    cases hc : cutAt 10 buf with
    | none => simp [findHeadEndFrom_none hc] at h
    | some p =>
      obtain ⟨lb, rest⟩ := p
      have hlen := cutAt_length hc
      have hdrop : buf.drop (lb.length + 1) = rest := by
        rw [(cutAt_eq_some_iff.mp hc).1, List.drop_length_add_append]
        rfl
      rw [findHeadEndFrom_some hc] at h
      have hm : lb.length + 1 ≤ e - pos := by
        split at h
        next => cases Option.some.inj h; omega
        next => have := (findHeadEndFrom_bounds h).1; omega
      obtain ⟨l, t', hcut, rfl, ht'⟩ := decode_line hc hm ht
      have hread := readLine_of_cutAt hc
      have htrim : trim (l ++ ['\n']) = trim l := trim_append_whitespace l (by decide)
      have hsuffix : buf.drop (e - pos) <:+ rest := by
        rw [← hdrop]
        exact List.drop_suffix_drop_left _ hm
      rw [lines_of_cutAt hcut]
      by_cases hb : trim l = []
      · rw [headLines_blank (by rwa [trim_stripSuffix]), readHead_blank hread (by rwa [htrim])]
        exact ⟨rest, rfl, hsuffix⟩
      · rw [if_neg fun hs => hb (trim_eq_nil_of_stripSuffix hs)] at h
        have hsub : e - pos - ((encodeUtf8 l).length + 1) =
            e - (pos + (encodeUtf8 l).length + 1) := by
          omega
        rw [hsub] at ht'
        obtain ⟨rest', hrest, hsuf⟩ := ih rest.length (by omega) h ht' rfl
        rw [headLines_cons (by rwa [trim_stripSuffix]), readHead_cons hread (by rwa [htrim]), hrest,
          trim_stripSuffix, htrim]
        refine ⟨rest', rfl, ?_⟩
        rwa [← hdrop, List.drop_drop, show (encodeUtf8 l).length + 1 +
          (e - (pos + (encodeUtf8 l).length + 1)) = e - pos by omega] at hsuf

theorem readLine_of_headText {buf : Bytes} {t : Text} {e : Nat} (h : headText buf = some (t, e)) :
    ∃ l rest, readLine buf = .ok (l, rest) ∧ trim l = requestLineOf t ∧ (requestLineOf t ≠ [] →
      ∃ rest', readHead rest = some (headLines (lines t).tail, rest') ∧ buf.drop e <:+ rest') := by
  obtain ⟨k, hf, _, ht⟩ := headText_eq_some_iff.mp h
  unfold findHeadEnd at hf
  cases hc : cutAt 10 buf with
  | none => simp [findHeadEndFrom_none hc] at hf
  | some p =>
    obtain ⟨lb, rest⟩ := p
    rw [findHeadEndFrom_some hc] at hf
    have hm : lb.length + 1 ≤ e := by
      split at hf
      next => cases Option.some.inj hf; omega
      next => have := (findHeadEndFrom_bounds hf).1; omega
    obtain ⟨l, t', hcut, rfl, ht'⟩ := decode_line hc hm ht
    have hline : requestLineOf t = trim l := by
      rw [requestLineOf, lines_of_cutAt hcut]
      exact trim_stripSuffix l
    refine ⟨_, rest, readLine_of_cutAt hc, ?_, fun hb => ?_⟩
    · rw [hline, trim_append_whitespace l (by decide)]
    rw [hline] at hb
    rw [if_neg fun hs => hb (trim_eq_nil_of_stripSuffix hs), Nat.zero_add] at hf
    obtain ⟨rest', hrest, hsuf⟩ := readHead_of_findHeadEnd hf ht'
    rw [lines_of_cutAt hcut]
    refine ⟨rest', hrest, ?_⟩
    have hdrop : buf.drop e = rest.drop (e - ((encodeUtf8 l).length + 1)) := by
      conv_lhs => rw [(cutAt_eq_some_iff.mp hc).1,
        show e = (encodeUtf8 l).length + (1 + (e - ((encodeUtf8 l).length + 1))) by omega,
        List.drop_length_add_append]
      rw [Nat.add_comm 1, List.drop_succ_cons]
    rwa [hdrop]

/-- On a head that `parse_bytes` takes, the reader finds the same request line and fields. -/
theorem readerHead_of_headText {buf : Bytes} {t : Text} {e : Nat} (h : headText buf = some (t, e))
    (hne : requestLineOf t ≠ []) :
    ∃ rest, readerHead buf = some (requestLineOf t, fieldsOf t, rest) ∧ buf.drop e <:+ rest := by
  obtain ⟨l, rest0, hl, hline, hrest⟩ := readLine_of_headText h
  obtain ⟨rest, hls, hsuf⟩ := hrest hne
  exact ⟨rest, readerHead_eq_some_iff.2 ⟨l, rest0, _, hl, hls, hline.symm, rfl⟩, hsuf⟩

/-- Whatever head the reader finds on such a buffer is that one, the request line not blank. -/
theorem readerHead_unique {buf rest : Bytes} {t line : Text} {fields : List (Text × Text)} {e : Nat}
    (ht : headText buf = some (t, e)) (h : readerHead buf = some (line, fields, rest))
    (hne : line ≠ []) : line = requestLineOf t ∧ fields = fieldsOf t := by
  obtain ⟨l, rest0, ls, hl, _, hline, _⟩ := readerHead_eq_some_iff.1 h
  obtain ⟨l', rest0', hl', hline', _⟩ := readLine_of_headText ht
  obtain ⟨rfl, rfl⟩ := by simpa only [Except.ok.injEq, Prod.mk.injEq] using hl.symm.trans hl'
  obtain ⟨rest', hh, _⟩ := readerHead_of_headText ht (by rwa [← hline', ← hline])
  rw [h] at hh
  simp only [Option.some.injEq, Prod.mk.injEq] at hh
  exact ⟨hh.1, hh.2.1⟩

theorem WellFormed.ne_nil {line : Text} {fields : List (Text × Text)} (h : WellFormed line fields) :
    line ≠ [] := by
  rintro rfl
  obtain ⟨first, target, parts, hp, _⟩ := h
  simp [requestLineParts, cutAt] at hp

/-- What the callers compare: method, path, query, headers and body. -/
structure SameRequest (r r' : Request) : Prop where
  method : r'.method = r.method
  path : r'.path = r.path
  query : r'.query.iter = r.query.iter
  headers : r'.headers.iter = r.headers.iter
  body : r'.body = r.body

structure ParsersAgree (u : UnicodeCase) (buf : Bytes) : Prop where
  complete : ∀ r n, parseBytes buf = .ok (.complete r n) →
    ∃ r', parseFromReader u buf = .ok r' ∧ SameRequest r r'
  error : ∀ e, parseBytes buf = .error e → ∀ r', parseFromReader u buf ≠ .ok r'

def methodOf (line : Text) : Text := (requestLineParts line).headD []

/-- The inputs on which the differences of the two parsers do not show: a head that one refuses
as a whole is no request for the other, and where a request is whole, the body begins with the
same bytes after the first blank line as after the head's end, and Unicode upper-casing of the
method is ASCII upper-casing. -/
structure ReadsAlike (u : UnicodeCase) (buf : Bytes) : Prop where
  refused : HeadRefused buf → ∀ line fields rest, readerHead buf = some (line, fields, rest) →
    ¬ (WellFormed line fields ∧ BodyArrived fields rest)
  whole : ∀ t e, headText buf = some (t, e) → WellFormed (requestLineOf t) (fieldsOf t) →
    BodyArrived (fieldsOf t) (buf.drop e) →
    toUppercase u (methodOf (requestLineOf t)) = toAsciiUppercase (methodOf (requestLineOf t)) ∧
    ∀ line fields rest, readerHead buf = some (line, fields, rest) →
      rest.take (declaredLength (fieldsOf t)) = (buf.drop e).take (declaredLength (fieldsOf t))

theorem parseBytes_error_of_refused {buf : Bytes} (h : HeadRefused buf) :
    ∃ e, parseBytes buf = .error e := by
  obtain ⟨e, he⟩ := parseHeadInner_of_refused h
  exact ⟨e, parseBytes_of_error he⟩

/-- The parsers agree on exactly the inputs that read alike. -/
theorem parsersAgree_iff (u : UnicodeCase) (buf : Bytes) :
    ParsersAgree u buf ↔ ReadsAlike u buf := by
  constructor
  · intro h
    refine ⟨fun href line fields rest hh ⟨hw, hc, hb⟩ => ?_, fun t e ht hw hb => ?_⟩
    · obtain ⟨e, he⟩ := parseBytes_error_of_refused href
      obtain ⟨r, hr⟩ := decodesTo_exists_iff.mpr hw
      exact h.error e he _ (parseFromReader_eq_ok_iff.mpr
        ⟨line, fields, rest, r, hh, hr, hc, hb, rfl⟩)
    · obtain ⟨r, hr⟩ := decodesTo_exists_iff.mpr hw
      obtain ⟨r', hr', hsame⟩ := h.complete _ _ (parseBytes_eq_complete_iff.mpr
        ⟨t, e, r, ht, hr, hb, rfl, rfl⟩)
      obtain ⟨line, fields, rest, r'', hh, hd, _, _, rfl⟩ := parseFromReader_eq_ok_iff.mp hr'
      obtain ⟨rest', hread, _⟩ := readerHead_of_headText ht hw.ne_nil
      rw [hread] at hh
      obtain ⟨rfl, rfl, rfl⟩ := by simpa only [Option.some.injEq, Prod.mk.injEq] using hh
      obtain ⟨hm, hm'⟩ := hr.method_eq hd
      refine ⟨?_, fun line fields rest heq => ?_⟩
      · have := hsame.method
        simp only [hm'] at this
        rw [methodOf, this, hm]
      · rw [hread] at heq
        obtain ⟨_, _, rfl⟩ := by simpa only [Option.some.injEq, Prod.mk.injEq] using heq
        exact hsame.body
  · intro h
    refine ⟨fun req n hp => ?_, fun e hp req hr => ?_⟩
    · obtain ⟨t, e, r, ht, hd, hb, _, rfl⟩ := parseBytes_eq_complete_iff.mp hp
      have hw := decodesTo_exists_iff.mp ⟨r, hd⟩
      obtain ⟨hm, hrest⟩ := h.whole t e ht hw hb
      obtain ⟨rest, hread, hsuf⟩ := readerHead_of_headText ht hw.ne_nil
      obtain ⟨r', hd'⟩ : ∃ r', DecodesTo (toUppercase u) (requestLineOf t) (fieldsOf t) r' :=
        decodesTo_exists_iff.mpr hw
      refine ⟨_, parseFromReader_eq_ok_iff.mpr ⟨_, _, rest, r', hread, hd', hb.1,
        hb.2.trans hsuf.length_le, rfl⟩, ?_⟩
      obtain ⟨hm₁, hm₂⟩ := hd.method_eq hd'
      subst hm₂
      exact ⟨hm.trans hm₁.symm, rfl, rfl, rfl, hrest _ _ _ hread⟩
    · obtain ⟨line, fields, rest, r, hh, hd, hc, hb, rfl⟩ := parseFromReader_eq_ok_iff.mp hr
      have hw := decodesTo_exists_iff.mp ⟨r, hd⟩
      by_cases href : HeadRefused buf
      · exact h.refused href line fields rest hh ⟨hw, hc, hb⟩
      cases ht : headText buf with
      | none => simp [parseBytes_of_none (parseHeadInner_of_waiting href ht)] at hp
      | some p =>
        obtain ⟨t, e'⟩ := p
        obtain ⟨rfl, rfl⟩ := readerHead_unique ht hh hw.ne_nil
        obtain ⟨r', hd'⟩ : ∃ r', DecodesTo toAsciiUppercase (requestLineOf t) (fieldsOf t) r' :=
          decodesTo_exists_iff.mpr hw
        rw [parseBytes_of_head (parseHeadInner_eq_some_iff.mpr ⟨t, ht, hd', rfl⟩),
          if_neg (Nat.not_lt.mpr hc)] at hp
        split at hp <;> simp at hp

/-- A request whose last header line is one space. -/
def blankLooking : Bytes :=
  encodeUtf8 "POST / HTTP/1.1\r\nContent-Length: 1\r\n \r\n\r\nx".toList

def bodyOfParsed : Except ParseError Parsed → Option Bytes
  | .ok (.complete r _) => some r.body
  | _ => none

def bodyOfRead (read : Except ParseError Request) : Option Bytes := read.toOption.map Request.body

/-- The line of one space ends the header loop of both parsers, but only the reader takes the body
to begin there. -/
theorem blankLooking_bodies :
    (∃ r n, parseBytes blankLooking = .ok (.complete r n) ∧ r.body = [120]) ∧
      ∃ r, parseFromReader acuteCase blankLooking = .ok r ∧ r.body = [13] := by
  have hb : bodyOfParsed (parseBytes blankLooking) = some [120] := by decide +kernel
  have hr : bodyOfRead (parseFromReader acuteCase blankLooking) = some [13] := by decide +kernel
  constructor
  · unfold bodyOfParsed at hb
    split at hb
    next r n hp => exact ⟨r, n, hp, Option.some.inj hb⟩
    next => cases hb
  · cases hread : parseFromReader acuteCase blankLooking with
    | error e =>
      rw [hread] at hr
      cases hr
    | ok r =>
      rw [hread] at hr
      exact ⟨r, rfl, Option.some.inj hr⟩

theorem not_parsersAgree : ¬ ∀ (u : UnicodeCase) (buf : Bytes), ParsersAgree u buf := by
  intro h
  obtain ⟨⟨r, n, hp, hb⟩, r', hr, hb'⟩ := blankLooking_bodies
  obtain ⟨r'', hr'', hsame⟩ := (h acuteCase blankLooking).complete r n hp
  obtain rfl := Except.ok.inj (hr.symm.trans hr'')
  have := hsame.body
  simp [hb, hb'] at this

end Kernway
