import Kernway.ClientDelivery
import Kernway.Decimal
import Kernway.HttpHeadLines

namespace Kernway.HttpClient

def requestLine (req : Request) : Text :=
  req.method.asStr ++ ' ' :: req.url.pathAndQuery ++ " HTTP/1.1".toList

def fieldLine (field : Text × Text) : Text := field.1 ++ ": ".toList ++ field.2

theorem encodeRequest_eq (req : Request) (keepAlive : Bool) (jar : Option Text) :
    encodeRequest req keepAlive jar =
      encodeUtf8 (headOf (requestLine req :: (req.encodedHeaders keepAlive jar).map fieldLine)) ++
        req.body := by
  rw [encodeRequest, headOf, List.flatMap_cons, List.flatMap_map]
  simp only [fieldLine, requestLine, crlf, List.append_assoc]

/-- What the caller hands over: the names of the headers are tokens, their values have no line end,
and none of them frames the body. -/
structure Ordinary (req : Request) : Prop where
  token : ∀ field ∈ req.headers, IsToken field.1
  value : ∀ field ∈ req.headers, '\r' ∉ field.2 ∧ '\n' ∉ field.2
  framing : ∀ field ∈ req.headers, eqIgnoreAsciiCase field.1 "content-length".toList = false ∧
    eqIgnoreAsciiCase field.1 "transfer-encoding".toList = false

/-- The path, the host and the cookies stay in their lines, and the path in its part of the line.
Host and cookies of the caller are written in place of the others. -/
structure InLine (req : Request) (jar : Option Text) : Prop where
  target : ' ' ∉ req.url.pathAndQuery ∧ '\n' ∉ req.url.pathAndQuery
  host : req.has "host".toList = false → '\n' ∉ req.url.host
  cookies : req.has cookie = false → ∀ cookies ∈ jar, '\n' ∉ cookies

/-- The server takes the request for what it is, whatever bytes follow it. -/
def Understood (req : Request) (keepAlive : Bool) (jar : Option Text) : Prop :=
  ∀ tail, ∃ r : Kernway.Request,
    parseBytes (encodeRequest req keepAlive jar ++ tail) =
        .ok (.complete r (encodeRequest req keepAlive jar).length) ∧
      r.method = req.method.asStr ∧ r.path = (splitTarget req.url.pathAndQuery).1 ∧
      parseQueryString (splitTarget req.url.pathAndQuery).2 = .ok r.query ∧
      (∀ field ∈ req.headers, (toAsciiLowercase field.1, field.2) ∈ r.headers.iter) ∧
      r.body = req.body

theorem lineFeed_notMem_hostHeader {url : Url} (h : '\n' ∉ url.host) : '\n' ∉ hostHeader url := by
  have hport := notMem_toDigits (c := '\n') (by decide) url.port.toNat
  have hfull : '\n' ∉ url.host ++ ':' :: Nat.toDigits 10 url.port.toNat := by
    simp [h, hport]
  unfold hostHeader
  by_cases hdefault : url.port = (if url.isTls then 443 else 80)
  · rw [if_pos hdefault]
    exact h
  · rw [if_neg hdefault]
    exact hfull

/-- A property of the headers that `encode_request` writes, from the ones that it adds and the ones
of the caller. -/
theorem forall_encodedHeaders {P : Text × Text → Prop} {req : Request} {keepAlive : Bool}
    {jar : Option Text}
    (hhost : req.has "host".toList = false → P ("Host".toList, hostHeader req.url))
    (hagent : P ("User-Agent".toList, "kernway-http-client/0.1".toList))
    (haccept : P ("Accept-Encoding".toList, "gzip, deflate, br".toList))
    (hcaller : ∀ field ∈ req.headers, P field)
    (hlength : P ("Content-Length".toList, Nat.toDigits 10 req.body.length))
    (hconnection : P ("Connection".toList, connectionToken keepAlive))
    (hcookie : req.has cookie = false → ∀ cookies ∈ jar, P ("Cookie".toList, cookies)) :
    ∀ field ∈ req.encodedHeaders keepAlive jar, P field := by
  have hif : ∀ {c : Bool} {f : Text × Text}, (c = false → P f) →
      ∀ field ∈ (if c then [] else [f]), P field := by
    intro c f hf field hfield
    cases c with
    | true => cases hfield
    | false =>
      rw [List.mem_singleton.mp hfield]
      exact hf rfl
  intro field hfield
  unfold Request.encodedHeaders at hfield
  simp only [List.mem_append] at hfield
  rcases hfield with (((((h | h) | h) | h) | h) | h) | h
  · exact hif hhost field h
  · exact hif (fun _ => hagent) field h
  · exact hif (fun _ => haccept) field h
  · exact hcaller field h
  · exact hif (fun _ => hlength) field h
  · exact hif (fun _ => hconnection) field h
  · cases jar with
    | none => cases h
    | some cookies =>
      refine hif (fun hnone => hcookie ?_ cookies rfl) field h
      rw [Bool.or_eq_false_iff] at hnone
      exact hnone.2

theorem isToken_encodedHeaders {req : Request} (h : Ordinary req) (keepAlive : Bool)
    (jar : Option Text) : ∀ field ∈ req.encodedHeaders keepAlive jar, IsToken field.1 := by
  have hname : ∀ {name : Text}, name ≠ [] → name.all isTokenChar = true → IsToken name :=
    fun hne hall => ⟨hne, List.all_eq_true.mp hall⟩
  apply forall_encodedHeaders (P := fun field => IsToken field.1)
  · intro _
    show IsToken "Host".toList
    exact hname (by decide) (by decide)
  · exact hname (by decide) (by decide)
  · exact hname (by decide) (by decide)
  · exact h.token
  · show IsToken "Content-Length".toList
    exact hname (by decide) (by decide)
  · show IsToken "Connection".toList
    exact hname (by decide) (by decide)
  · intro _ cookies _
    show IsToken "Cookie".toList
    exact hname (by decide) (by decide)

theorem lineFeed_notMem_encodedHeaders {req : Request} {jar : Option Text} (h : Ordinary req)
    (hline : InLine req jar) (keepAlive : Bool) :
    ∀ field ∈ req.encodedHeaders keepAlive jar, '\n' ∉ field.2 := by
  apply forall_encodedHeaders (P := fun field => '\n' ∉ field.2)
  · exact fun hnone => lineFeed_notMem_hostHeader (hline.host hnone)
  · decide
  · decide
  · exact fun field hfield => (h.value field hfield).2
  · exact notMem_toDigits (by decide) _
  · cases keepAlive <;> decide
  · exact hline.cookies

theorem isTokenChar_plain {c : Char} (h : isTokenChar c = true) :
    isWhitespace c = false ∧ c ≠ ':' ∧ c ≠ '\n' := by
  have hascii : c.toNat ≤ 127 := by
    by_contra hhigh
    simp only [isTokenChar, Bool.or_eq_true, beq_iff_eq, decide_eq_true_eq] at h
    rcases h with (halnum | hmem) | rfl
    · simp only [Char.isAlphanum, Char.isAlpha, Char.isUpper, Char.isLower, Char.isDigit,
        Bool.or_eq_true, Bool.and_eq_true, decide_eq_true_eq, UInt32.le_iff_toNat_le] at halnum
      have htoNat : c.toNat = c.val.toNat := rfl
      have hZ : 'Z'.val.toNat = 90 := rfl
      have hz : 'z'.val.toNat = 122 := rfl
      have h9 : '9'.val.toNat = 57 := rfl
      omega
    · have hall : ("!#$%&'*+-.^_|~".toList).all (·.toNat ≤ 127) = true := by decide
      have hle := List.all_eq_true.mp hall c hmem
      exact hhigh (of_decide_eq_true hle)
    · exact hhigh (by decide)
  have hsmall : ∀ n ≤ 127, isTokenChar (Char.ofNat n) = true →
      isWhitespace (Char.ofNat n) = false ∧ Char.ofNat n ≠ ':' ∧ Char.ofNat n ≠ '\n' := by
    decide +kernel
  have hc := hsmall c.toNat hascii
  rw [Char.ofNat_toNat] at hc
  exact hc h

theorem splitHeader_fieldLine {field : Text × Text} (h : IsToken field.1) :
    splitHeader (trim (fieldLine field)) = some (field.1, trim field.2) := by
  have hplain : ∀ c ∈ field.1, isWhitespace c = false ∧ c ≠ ':' ∧ c ≠ '\n' := fun c hc =>
    isTokenChar_plain (h.2 c hc)
  have hname : trim field.1 = field.1 := by
    apply trim_eq_self
    · exact fun c hc => (hplain c (List.mem_of_mem_head? hc)).1
    · exact fun c hc => (hplain c (List.mem_of_getLast? hc)).1
  have hvalue : trim (' ' :: field.2) = trim field.2 := by
    rw [trim, List.dropWhile_cons_of_pos (by decide), ← trim]
  have hcut : cutAt ':' (fieldLine field) = some (field.1, ' ' :: field.2) := by
    refine cutAt_eq_some_iff.mpr ⟨?_, fun hc => (hplain ':' hc).2.1 rfl⟩
    rw [fieldLine, List.append_assoc]
    rfl
  rw [splitHeader_trim, splitHeader, hcut, Option.map_some, hname, hvalue]

theorem trim_fieldLine_ne_nil {field : Text × Text} (h : IsToken field.1) :
    trim (fieldLine field) ≠ [] := by
  intro hempty
  have hsplit := splitHeader_fieldLine h
  rw [hempty] at hsplit
  cases hsplit

theorem fieldsOf_headOf {first : Text} {fields : List (Text × Text)} (hfirst : '\n' ∉ first)
    (htokens : ∀ field ∈ fields, IsToken field.1)
    (hlines : ∀ field ∈ fields, '\n' ∉ fieldLine field) :
    fieldsOf (headOf (first :: fields.map fieldLine)) =
      fields.map fun field => (field.1, trim field.2) := by
  have hall : ∀ l ∈ first :: fields.map fieldLine, '\n' ∉ l := by
    refine List.forall_mem_cons.mpr ⟨hfirst, ?_⟩
    intro l hl
    obtain ⟨field, hfield, rfl⟩ := List.mem_map.mp hl
    exact hlines field hfield
  rw [fieldsOf, lines_headOf hall, List.cons_append, List.tail_cons]
  clear hall hlines
  induction fields with
  | nil => rfl
  | cons field fields ih =>
    rw [List.forall_mem_cons] at htokens
    rw [List.map_cons, List.cons_append, headLines_cons (trim_fieldLine_ne_nil htokens.1),
      List.filterMap_cons_some (splitHeader_fieldLine htokens.1), ih htokens.2, List.map_cons]

theorem requestLineOf_headOf {first : Text} {ls : List Text} (h : ∀ l ∈ first :: ls, '\n' ∉ l) :
    requestLineOf (headOf (first :: ls)) = trim first := by
  rw [requestLineOf, lines_headOf h]
  rfl

theorem asStr_word (method : Method) :
    ' ' ∉ method.asStr ∧ '\n' ∉ method.asStr ∧
      toAsciiUppercase method.asStr = method.asStr := by
  cases method <;> decide

theorem asStr_cons (method : Method) :
    ∃ c rest, method.asStr = c :: rest ∧ isWhitespace c = false := by
  cases method <;> exact ⟨_, _, rfl, by decide⟩

theorem trim_requestLine (req : Request) : trim (requestLine req) = requestLine req := by
  obtain ⟨first, rest, hfirst, hspace⟩ := asStr_cons req.method
  apply trim_eq_self
  · intro c hc
    rw [requestLine, hfirst] at hc
    cases hc
    exact hspace
  · intro c hc
    have hlast : (requestLine req).getLast? = some '1' := by
      rw [requestLine, List.getLast?_append_of_ne_nil _ (by decide)]
      decide
    rw [hlast] at hc
    cases hc
    decide

theorem requestLineParts_requestLine {req : Request} (h : ' ' ∉ req.url.pathAndQuery) :
    requestLineParts (requestLine req) =
      [req.method.asStr, req.url.pathAndQuery, "HTTP/1.1".toList] := by
  have hmethod : cutAt ' ' (requestLine req) =
      some (req.method.asStr, req.url.pathAndQuery ++ " HTTP/1.1".toList) := by
    refine cutAt_eq_some_iff.mpr ⟨?_, (asStr_word req.method).1⟩
    rw [requestLine, List.append_assoc]
    rfl
  have htarget : cutAt ' ' (req.url.pathAndQuery ++ " HTTP/1.1".toList) =
      some (req.url.pathAndQuery, "HTTP/1.1".toList) :=
    cutAt_eq_some_iff.mpr ⟨rfl, h⟩
  rw [requestLineParts, hmethod]
  dsimp only
  rw [htarget]

def isLength (field : Text × Text) : Bool := eqIgnoreAsciiCase field.1 "content-length".toList

theorem declaredLength_eq (fields : List (Text × Text)) :
    Kernway.declaredLength fields =
      (((fields.filter isLength).getLast?.map Prod.snd).bind parseUsize).getD 0 := by
  have hfind : fields.reverse.find? isLength = (fields.filter isLength).getLast? := by
    rw [← List.head?_filter, List.filter_reverse, List.head?_reverse]
  rw [Kernway.declaredLength, ← hfind]
  rfl

/-- The only length among the headers is the one that `encode_request` adds. -/
theorem filter_encodedHeaders {req : Request} (h : Ordinary req) (keepAlive : Bool)
    (jar : Option Text) :
    (req.encodedHeaders keepAlive jar).filter isLength =
      if req.body.isEmpty then [] else [("Content-Length".toList, Nat.toDigits 10 req.body.length)] := by
  have hadded : ∀ (name value : Text),
      eqIgnoreAsciiCase name "content-length".toList = false → ∀ (c : Prop) [Decidable c],
      (if c then [] else [(name, value)]).filter isLength = [] := by
    intro name value hname c _
    split
    next => rfl
    next =>
      refine List.filter_eq_nil_iff.mpr fun field hfield => ?_
      rw [List.mem_singleton.mp hfield, isLength, hname]
      exact Bool.false_ne_true
  have hcaller : req.headers.filter isLength = [] := by
    refine List.filter_eq_nil_iff.mpr fun field hfield => ?_
    rw [isLength, (h.framing field hfield).1]
    exact Bool.false_ne_true
  have hhas : req.has "content-length".toList = false := by
    rw [Request.has, List.any_eq_false]
    intro field hfield
    rw [(h.framing field hfield).1]
    exact Bool.false_ne_true
  have hlength : (if req.body.isEmpty || req.has "content-length".toList then []
      else [("Content-Length".toList, Nat.toDigits 10 req.body.length)]).filter isLength =
      if req.body.isEmpty then []
      else [("Content-Length".toList, Nat.toDigits 10 req.body.length)] := by
    rw [hhas, Bool.or_false]
    split
    next => rfl
    next => rfl
  have hhost := hadded "Host".toList (hostHeader req.url) (by decide) (req.has "host".toList)
  have hagent := hadded "User-Agent".toList "kernway-http-client/0.1".toList (by decide)
    (req.has "user-agent".toList)
  have haccept := hadded "Accept-Encoding".toList "gzip, deflate, br".toList (by decide)
    (req.has "accept-encoding".toList)
  have hconnection := hadded "Connection".toList (connectionToken keepAlive) (by decide)
    (req.has "connection".toList)
  unfold Request.encodedHeaders
  rw [List.filter_append, List.filter_append, List.filter_append, List.filter_append,
    List.filter_append, List.filter_append, hhost, hagent, haccept, hcaller, hlength, hconnection]
  cases jar with
  | none => simp only [List.nil_append, List.append_nil, List.filter_nil]
  | some value =>
    have hcookie := hadded "Cookie".toList value (by decide) (value.isEmpty || req.has cookie)
    dsimp only
    rw [hcookie]
    simp only [List.nil_append, List.append_nil]

/-- The length that the headers declare, as the server reads them, is the length of the body. -/
theorem declaredLength_encoded {req : Request} (h : Ordinary req) (keepAlive : Bool)
    (jar : Option Text) (hlen : req.body.length < 2 ^ 64) :
    Kernway.declaredLength
      ((req.encodedHeaders keepAlive jar).map fun field => (field.1, trim field.2)) =
        req.body.length := by
  have hfilter : ((req.encodedHeaders keepAlive jar).map fun field => (field.1, trim field.2)).filter
      isLength = ((req.encodedHeaders keepAlive jar).filter isLength).map fun field =>
        (field.1, trim field.2) := by
    rw [List.filter_map]
    rfl
  rw [declaredLength_eq, hfilter, filter_encodedHeaders h]
  split
  next hempty =>
    rw [List.isEmpty_iff.mp hempty]
    rfl
  next =>
    show ((parseUsize (trim (Nat.toDigits 10 req.body.length))).getD 0) = _
    rw [trim_digits (all_toDigits _), parseUsize_toDigits hlen]
    rfl

/-- The lines that the head of the request is made of. -/
def wireLines (req : Request) (keepAlive : Bool) (jar : Option Text) : List Text :=
  requestLine req :: (req.encodedHeaders keepAlive jar).map fieldLine

/-- The head of the request, with the blank line at its end. -/
def wireHead (req : Request) (keepAlive : Bool) (jar : Option Text) : Text :=
  headOf (wireLines req keepAlive jar)

theorem isLine_wireLines {req : Request} {jar : Option Text} (h : Ordinary req)
    (hline : InLine req jar) (keepAlive : Bool) :
    ∀ l ∈ wireLines req keepAlive jar, IsLine l := by
  refine List.forall_mem_cons.mpr ⟨?_, ?_⟩
  · have hend : '\n' ∉ " HTTP/1.1".toList := by decide
    constructor
    · simp [requestLine]
    · simp only [requestLine, List.mem_append, List.mem_cons, not_or]
      exact ⟨⟨(asStr_word req.method).2.1, by decide, hline.target.2⟩, hend⟩
  · intro l hl
    obtain ⟨field, hfield, rfl⟩ := List.mem_map.mp hl
    have htoken := isToken_encodedHeaders h keepAlive jar field hfield
    have hvalue := lineFeed_notMem_encodedHeaders h hline keepAlive field hfield
    have hname : '\n' ∉ field.1 := fun hmem => (isTokenChar_plain (htoken.2 _ hmem)).2.2 rfl
    constructor
    · simp [fieldLine]
    · simp only [fieldLine, List.mem_append, not_or]
      exact ⟨⟨hname, by decide⟩, hvalue⟩

theorem fieldsOf_wireHead {req : Request} {jar : Option Text} (h : Ordinary req)
    (hline : InLine req jar) (keepAlive : Bool) :
    fieldsOf (wireHead req keepAlive jar) =
      (req.encodedHeaders keepAlive jar).map fun field => (field.1, trim field.2) := by
  have hall := isLine_wireLines h hline keepAlive
  obtain ⟨hfirst, hfields⟩ := List.forall_mem_cons.mp hall
  apply fieldsOf_headOf hfirst.2 (isToken_encodedHeaders h keepAlive jar)
  intro field hfield
  exact (hfields _ (List.mem_map_of_mem hfield)).2

theorem requestLineOf_wireHead {req : Request} {jar : Option Text} (h : Ordinary req)
    (hline : InLine req jar) (keepAlive : Bool) :
    requestLineOf (wireHead req keepAlive jar) = requestLine req := by
  have hall := isLine_wireLines h hline keepAlive
  rw [wireHead, wireLines, requestLineOf_headOf fun l hl => (hall l hl).2, trim_requestLine]

/-- The fields that the server reads take no more bytes than the head. -/
theorem fieldBytes_wire (fields : List (Text × Text)) :
    fieldBytes (fields.map fun field => (field.1, trim field.2)) ≤
      (encodeUtf8 (headOf (fields.map fieldLine))).length := by
  induction fields with
  | nil => exact Nat.zero_le _
  | cons field fields ih =>
    have htrim := length_trim_le field.2
    rw [List.map_cons, List.map_cons, headOf_cons]
    simp only [fieldBytes, List.map_cons, List.sum_cons, fieldLine, encodeUtf8_append,
      encodeUtf8_crlf, List.length_append, List.length_cons] at ih ⊢
    omega

theorem wellFormed_wire {req : Request} {jar : Option Text} (hline : InLine req jar)
    (keepAlive : Bool) (hlen : (encodeUtf8 (wireHead req keepAlive jar)).length ≤ maxHeadBytes) :
    WellFormed (requestLine req)
      ((req.encodedHeaders keepAlive jar).map fun field => (field.1, trim field.2)) := by
  have hfields := fieldBytes_wire (req.encodedHeaders keepAlive jar)
  have hpairs := queryPairs_length (splitTarget req.url.pathAndQuery).2
  have hquery : (encodeUtf8 (splitTarget req.url.pathAndQuery).2).length ≤
      (encodeUtf8 req.url.pathAndQuery).length := by
    unfold splitTarget
    cases hcut : cutAt '?' req.url.pathAndQuery with
    | none => exact Nat.zero_le _
    | some cut =>
      obtain ⟨path, query⟩ := cut
      obtain ⟨heq, -⟩ := cutAt_eq_some_iff.mp hcut
      rw [heq, encodeUtf8_append, encodeUtf8_cons, List.length_append, List.length_append]
      show (encodeUtf8 query).length ≤ _
      omega
  have hmax : maxHeadBytes < 2 ^ 32 := by decide
  rw [wireHead, wireLines, headOf_cons] at hlen
  simp only [requestLine, encodeUtf8_append, encodeUtf8_cons, List.length_append] at hlen
  exact ⟨_, _, _, requestLineParts_requestLine hline.target.1, by omega, by omega⟩

theorem mem_encodedHeaders {req : Request} {field : Text × Text} (h : field ∈ req.headers)
    (keepAlive : Bool) (jar : Option Text) : field ∈ req.encodedHeaders keepAlive jar := by
  unfold Request.encodedHeaders
  apply List.mem_append_left
  apply List.mem_append_left
  apply List.mem_append_left
  exact List.mem_append_right _ h

theorem encodeRequest_wire (req : Request) (keepAlive : Bool) (jar : Option Text) :
    encodeRequest req keepAlive jar = encodeUtf8 (wireHead req keepAlive jar) ++ req.body :=
  encodeRequest_eq req keepAlive jar

/-- The server reads trimmed values, and within its limits. -/
theorem limits_of_understood {req : Request} {keepAlive : Bool} {jar : Option Text}
    (h : Ordinary req) (hline : InLine req jar) (hunderstood : Understood req keepAlive jar) :
    (∀ field ∈ req.headers, trim field.2 = field.2) ∧
      (encodeUtf8 (wireHead req keepAlive jar)).length ≤ maxHeadBytes ∧
      req.body.length ≤ maxBodyBytes := by
  have hlines := isLine_wireLines h hline keepAlive
  have hfields := fieldsOf_wireHead h hline keepAlive
  obtain ⟨r, hparse, -, -, -, hheaders, hbody⟩ := hunderstood []
  rw [List.append_nil] at hparse
  obtain ⟨head, headEnd, r', hhead, hdecodes, ⟨hlimit, -⟩, hconsumed, hr⟩ :=
    parseBytes_eq_complete_iff.mp hparse
  rw [encodeRequest_wire, wireHead, headText_headOf hlines] at hhead
  split at hhead
  next => cases hhead
  next hshort =>
    cases hhead
    rw [wireHead] at hfields
    rw [hfields] at hdecodes hlimit hconsumed
    have hlength : req.body.length ≤ maxBodyBytes := by
      rw [encodeRequest_wire, List.length_append, wireHead] at hconsumed
      omega
    refine ⟨?_, by rw [wireHead]; omega, hlength⟩
    obtain ⟨_, _, _, _, headers, _, _, hheads, rfl⟩ := hdecodes
    have hiter := Fields.iter_of_holds (appendAll_holds Fields.holds_nil hheads)
    intro field hfield
    have hmem := hheaders field hfield
    rw [hr] at hmem
    dsimp only at hmem
    rw [hiter, List.nil_append, List.map_map] at hmem
    obtain ⟨other, -, heq⟩ := List.mem_map.mp hmem
    have hvalue : trim other.2 = field.2 := congrArg Prod.snd heq
    rw [← hvalue, trim_trim]

theorem understood_of_limits {req : Request} {keepAlive : Bool} {jar : Option Text}
    (h : Ordinary req) (hline : InLine req jar)
    (htrimmed : ∀ field ∈ req.headers, trim field.2 = field.2)
    (hshort : (encodeUtf8 (wireHead req keepAlive jar)).length ≤ maxHeadBytes)
    (hbody : req.body.length ≤ maxBodyBytes) : Understood req keepAlive jar := by
  intro tail
  have hlines := isLine_wireLines h hline keepAlive
  have hfields := fieldsOf_wireHead h hline keepAlive
  have hfirst := requestLineOf_wireHead h hline keepAlive
  have hparts := requestLineParts_requestLine hline.target.1
  have hwire := encodeRequest_wire req keepAlive jar
  have hmax : maxBodyBytes < 2 ^ 64 := by decide
  have hlength := declaredLength_encoded h keepAlive jar (by omega)
  have hhead := headText_headOf hlines (req.body ++ tail)
  rw [wireHead] at hshort hfields hfirst
  rw [if_neg (by omega)] at hhead
  obtain ⟨r, hr⟩ := decodesTo_exists_iff.mpr (wellFormed_wire hline keepAlive hshort)
  have hbytes : encodeRequest req keepAlive jar ++ tail =
      encodeUtf8 (headOf (wireLines req keepAlive jar)) ++ (req.body ++ tail) := by
    rw [hwire, List.append_assoc]
    rfl
  have hdrop : (encodeRequest req keepAlive jar ++ tail).drop
      (encodeUtf8 (headOf (wireLines req keepAlive jar))).length = req.body ++ tail := by
    rw [hbytes, List.drop_left]
  have hparse : parseBytes (encodeRequest req keepAlive jar ++ tail) =
      .ok (.complete { r with body := req.body } (encodeRequest req keepAlive jar).length) := by
    refine parseBytes_eq_complete_iff.mpr ⟨_, _, r, hbytes ▸ hhead, ?_, ?_, ?_, ?_⟩
    · rw [hfields, hfirst]
      exact hr
    · rw [hfields, hdrop, BodyArrived, hlength, List.length_append]
      omega
    · rw [hfields, hlength, hwire, List.length_append]
      rfl
    · rw [hfields, hlength, hdrop, List.take_left]
  obtain ⟨first, target, parts, query, headers, hsplit, hquery, hheads, rfl⟩ := hr
  rw [hparts] at hsplit
  cases hsplit
  refine ⟨_, hparse, (asStr_word req.method).2.2, rfl, hquery, ?_, rfl⟩
  have hiter := Fields.iter_of_holds (appendAll_holds Fields.holds_nil hheads)
  intro field hfield
  dsimp only
  rw [hiter, List.nil_append, List.map_map]
  refine List.mem_map.mpr ⟨field, ?_, ?_⟩
  · exact mem_encodedHeaders hfield keepAlive jar
  · show (storedText true field.1, trim field.2) = _
    rw [htrimmed field hfield]
    rfl

/-- A request whose parts stay in their lines is understood exactly where the values of its headers
have no white space around them and the server's limits hold. -/
theorem understood_iff (req : Request) (keepAlive : Bool) (jar : Option Text) (h : Ordinary req)
    (hline : InLine req jar) : Understood req keepAlive jar ↔
      (∀ field ∈ req.headers, trim field.2 = field.2) ∧
      (encodeUtf8 (wireHead req keepAlive jar)).length ≤ maxHeadBytes ∧
      req.body.length ≤ maxBodyBytes :=
  ⟨limits_of_understood h hline, fun hlimits =>
    understood_of_limits h hline hlimits.1 hlimits.2.1 hlimits.2.2⟩

/-- A request for a page with a note. -/
def noted (note : Text) : Request := ⟨.get, ⟨http, ['h'], 80, ['/']⟩, [("x-note".toList, note)], []⟩

theorem ordinary_noted {note : Text} (h : '\r' ∉ note ∧ '\n' ∉ note) : Ordinary (noted note) := by
  constructor
  · intro field hfield
    rw [List.mem_singleton.mp hfield]
    have hall : ("x-note".toList).all isTokenChar = true := by decide
    show IsToken "x-note".toList
    exact ⟨by decide, List.all_eq_true.mp hall⟩
  · intro field hfield
    rw [List.mem_singleton.mp hfield]
    exact h
  · intro field hfield
    rw [List.mem_singleton.mp hfield]
    show eqIgnoreAsciiCase "x-note".toList "content-length".toList = false ∧
      eqIgnoreAsciiCase "x-note".toList "transfer-encoding".toList = false
    decide

theorem inLine_noted (note : Text) : InLine (noted note) none := by
  refine ⟨?_, ?_, by simp⟩
  · show ' ' ∉ ['/'] ∧ '\n' ∉ ['/']
    decide
  · intro _
    show '\n' ∉ ['h']
    decide

theorem understood_iff_noted : Understood (noted ['v']) true none ↔
    (∀ field ∈ (noted ['v']).headers, trim field.2 = field.2) ∧
    (encodeUtf8 (wireHead (noted ['v']) true none)).length ≤ maxHeadBytes ∧
    (noted ['v']).body.length ≤ maxBodyBytes :=
  understood_iff _ true none (ordinary_noted (by decide)) (inLine_noted _)

/-- White space around a value is not of the value for the server. -/
theorem not_understood : ¬ ∀ (url : Text) (req : Request) (keepAlive : Bool) (jar : Option Text),
    Url.parse url = .ok req.url → Ordinary req → Understood req keepAlive jar := by
  intro h
  have hunderstood := h "http://h/".toList (noted [' ', 'v']) true none rfl
    (ordinary_noted (by decide))
  have hvalue := (limits_of_understood (ordinary_noted (by decide)) (inLine_noted _)
    hunderstood).1 _ (List.mem_singleton.mpr rfl)
  exact absurd hvalue (by decide)

end Kernway.HttpClient
