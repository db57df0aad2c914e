import Kernway.Multipart

namespace Kernway.Multipart

/-- A part to be sent. -/
structure PartSpec where
  name : Text
  filename : Option Text
  contentType : Option Text
  body : Bytes

def contentDisposition (p : PartSpec) : Text :=
  "Content-Disposition: form-data; name=\"".toList ++ p.name ++ ['"'] ++
    p.filename.elim [] fun f => "; filename=\"".toList ++ f ++ ['"']

def contentTypeLine (contentType : Text) : Text := "Content-Type: ".toList ++ contentType

def crlf : Text := ['\r', '\n']

/-- The lines of a part's headers, without the end of the last one. -/
def headerBlock (p : PartSpec) : Text :=
  contentDisposition p ++ p.contentType.elim [] fun ct => crlf ++ contentTypeLine ct

/-- A part as the builder of the tests writes it. -/
def buildPart (boundary : Text) (p : PartSpec) : Bytes :=
  encodeUtf8 ("--".toList ++ boundary ++ crlf) ++ encodeUtf8 (contentDisposition p ++ crlf) ++
    (p.contentType.elim [] fun ct => encodeUtf8 (contentTypeLine ct ++ crlf)) ++
    encodeUtf8 crlf ++ p.body ++ encodeUtf8 crlf

def build (boundary : Text) (parts : List PartSpec) : Bytes :=
  parts.flatMap (buildPart boundary) ++ encodeUtf8 ("--".toList ++ boundary ++ "--\r\n".toList)

/-- `bchars` of the grammar of boundaries. -/
def isBoundaryChar (c : Char) : Bool :=
  c.isAlphanum || "'()+_,-./:=? ".toList.contains c

/-- A name or a filename that can stand between quotes in a header. -/
def Quotable (s : Text) : Prop := '"' ∉ s ∧ '\r' ∉ s ∧ '\n' ∉ s

/-- What the form may hold: the header block is within the limit, and the boundary does not stand in
the body. -/
structure PartSpec.Legal (p : PartSpec) (boundary : Text) : Prop where
  name : Quotable p.name
  filename : ∀ f ∈ p.filename, Quotable f
  contentType : ∀ ct ∈ p.contentType, '\r' ∉ ct ∧ '\n' ∉ ct
  headers : (encodeUtf8 (headerBlock p)).length ≤ maxPartHeaderBytes
  body : ¬ encodeUtf8 ("\r\n--".toList ++ boundary) <:+: p.body

structure LegalForm (boundary : Text) (parts : List PartSpec) : Prop where
  chars : ∀ c ∈ boundary, isBoundaryChar c = true
  few : parts.length ≤ maxParts
  each : ∀ p ∈ parts, p.Legal boundary

/-- The part as it comes back: a header value has no blanks around it. -/
def PartSpec.received (p : PartSpec) : RawPart :=
  ⟨p.name, p.filename, p.contentType.map trim, p.body⟩

section Lines

variable {line rest : Text}

theorem cutText_crlf (h : '\r' ∉ line) (rest : Text) :
    cutText ['\r', '\n'] (line ++ '\r' :: '\n' :: rest) = some (line, rest) := by
  induction line with
  | nil => rfl
  | cons c line ih =>
    rw [List.mem_cons, not_or] at h
    have hc : (['\r', '\n'] : Text).isPrefixOf (c :: (line ++ '\r' :: '\n' :: rest)) = false := by
      rw [List.isPrefixOf, beq_false_of_ne h.1, Bool.false_and]
    rw [List.cons_append, cutText, hc, if_neg Bool.false_ne_true, ih h.2]
    rfl

theorem cutText_crlf_none (h : '\r' ∉ line) : cutText ['\r', '\n'] line = none := by
  cases hcut : cutText ['\r', '\n'] line with
  | none => rfl
  | some p =>
    have hline := cutText_eq_some hcut
    rw [hline] at h
    simp at h

theorem splitCrlf_cons (h : '\r' ∉ line) (rest : Text) :
    splitCrlf (line ++ '\r' :: '\n' :: rest) = line :: splitCrlf rest := by
  rw [splitCrlf]
  split
  next hcut =>
    rw [cutText_crlf h] at hcut
    cases hcut
  next before after hcut =>
    rw [cutText_crlf h] at hcut
    cases hcut
    rfl

theorem splitCrlf_last (h : '\r' ∉ line) : splitCrlf line = [line] := by
  rw [splitCrlf]
  split
  next => rfl
  next before after hcut =>
    rw [cutText_crlf_none h] at hcut
    cases hcut

end Lines

section Headers

/-- A blank before a text that ends with a quote is all that is trimmed. -/
theorem trim_quoted {c : Char} (hc : isWhitespace c = false) (s : Text) :
    trim (' ' :: c :: s ++ ['"']) = c :: s ++ ['"'] := by
  have hdrop : trim (' ' :: c :: s ++ ['"']) = trim (c :: s ++ ['"']) := by
    rw [trim, List.cons_append, List.dropWhile_cons_of_pos (by decide), ← trim]
  rw [hdrop]
  apply trim_eq_self
  · intro d hd
    cases hd
    exact hc
  · intro d hd
    rw [List.getLast?_concat] at hd
    cases hd
    decide

theorem unquote_quoted {s : Text} (h : '"' ∉ s) : unquote ('"' :: s ++ ['"']) = s := by
  have htrim : trim ('"' :: s ++ ['"']) = '"' :: s ++ ['"'] := by
    apply trim_eq_self
    · intro c hc
      cases hc
      decide
    · intro c hc
      rw [List.getLast?_concat] at hc
      cases hc
      decide
  have hquote : decide ('"' = '"') = true := by decide
  have hfirst : ∀ t : Text, ('"' :: t).dropWhile (· = '"') = t.dropWhile (· = '"') := fun _ => rfl
  rw [unquote, htrim, List.cons_append, hfirst]
  cases s with
  | nil => rfl
  | cons c s =>
    rw [List.mem_cons, not_or] at h
    have hc : ¬ decide (c = '"') = true := by simpa using Ne.symm h.1
    have hlast : ∀ hne : c :: s ≠ [], ¬ decide ((c :: s).getLast hne = '"') = true := by
      intro hne heq
      have hmem := List.getLast_mem hne
      rw [of_decide_eq_true heq, List.mem_cons] at hmem
      exact hmem.elim h.1 h.2
    rw [List.cons_append, List.dropWhile_cons, if_neg hc, ← List.cons_append,
      List.rdropWhile_concat, if_pos hquote, List.rdropWhile_eq_self_iff]
    exact hlast

theorem addParam_name {name : Text} (h : '"' ∉ name) (found : PartMeta) :
    addParam found (" name=\"".toList ++ name ++ ['"']) = { found with name := some name } := by
  have htrim : trim (" name=\"".toList ++ name ++ ['"']) = "name=".toList ++ ('"' :: name ++ ['"']) :=
    trim_quoted (c := 'n') (by decide) ("ame=\"".toList ++ name)
  have hname : "name=".toList.isPrefixOf? ("name=".toList ++ ('"' :: name ++ ['"'])) =
      some ('"' :: name ++ ['"']) := rfl
  unfold addParam
  rw [htrim, hname]
  dsimp only
  rw [unquote_quoted h]

theorem addParam_filename {filename : Text} (h : '"' ∉ filename) (found : PartMeta) :
    addParam found (" filename=\"".toList ++ filename ++ ['"']) =
      { found with filename := some filename } := by
  have htrim : trim (" filename=\"".toList ++ filename ++ ['"']) =
      "filename=".toList ++ ('"' :: filename ++ ['"']) :=
    trim_quoted (c := 'f') (by decide) ("ilename=\"".toList ++ filename)
  have hname : "name=".toList.isPrefixOf? ("filename=".toList ++ ('"' :: filename ++ ['"'])) =
      none := rfl
  have hfilename : "filename=".toList.isPrefixOf? ("filename=".toList ++ ('"' :: filename ++ ['"'])) =
      some ('"' :: filename ++ ['"']) := rfl
  unfold addParam
  rw [htrim, hname, hfilename]
  dsimp only
  rw [unquote_quoted h]

/-- What stands behind the first semicolon of a disposition. -/
def params (p : PartSpec) : Text :=
  " name=\"".toList ++ p.name ++ ['"'] ++
    p.filename.elim [] fun f => ';' :: (" filename=\"".toList ++ f ++ ['"'])

theorem cutAt_contentDisposition (p : PartSpec) : cutAt ':' (contentDisposition p) =
    some ("Content-Disposition".toList, ' ' :: "form-data".toList ++ ';' :: params p) := by
  refine cutAt_eq_some_iff.mpr ⟨?_, by decide⟩
  unfold contentDisposition params
  cases p.filename with
  | none => rfl
  | some f => rfl

theorem trim_params (p : PartSpec) : trim (' ' :: "form-data".toList ++ ';' :: params p) =
    "form-data".toList ++ ';' :: params p := by
  have hlast : ∃ front, params p = front ++ ['"'] := by
    unfold params
    cases p.filename with
    | none => exact ⟨" name=\"".toList ++ p.name, by simp⟩
    | some f =>
      exact ⟨" name=\"".toList ++ p.name ++ ['"'] ++ ';' :: (" filename=\"".toList ++ f), by simp⟩
  obtain ⟨front, hfront⟩ := hlast
  rw [hfront]
  exact trim_quoted (by decide) ("orm-data".toList ++ ';' :: front)

theorem splitHeader_contentDisposition (p : PartSpec) :
    splitHeader (trim (contentDisposition p)) =
      some ("Content-Disposition".toList, "form-data".toList ++ ';' :: params p) := by
  have hkey : trim "Content-Disposition".toList = "Content-Disposition".toList := by decide
  rw [splitHeader_trim, splitHeader, cutAt_contentDisposition, Option.map_some, hkey, trim_params]

theorem notMem_quoted {before s : Text} (hbefore : ';' ∉ before) (hs : ';' ∉ s) :
    ';' ∉ before ++ s ++ ['"'] := by
  simp [hbefore, hs]

/-- The parameters, cut at the semicolons between them. -/
theorem foldl_addParam {p : PartSpec} (hname : Quotable p.name)
    (hfilename : ∀ f ∈ p.filename, Quotable f) (hsemi : ';' ∉ p.name)
    (hsemi' : ∀ f ∈ p.filename, ';' ∉ f) :
    ((params p).splitOn ';').foldl addParam {} =
      { name := some p.name, filename := p.filename } := by
  have hkeys : ';' ∉ " name=\"".toList ∧ ';' ∉ " filename=\"".toList := by decide
  have hname' := notMem_quoted hkeys.1 hsemi
  unfold params
  cases hf : p.filename with
  | none =>
    rw [Option.elim_none, List.append_nil, List.splitOn_eq_singleton hname', List.foldl_cons,
      addParam_name hname.1, List.foldl_nil]
  | some f =>
    have hf' := notMem_quoted hkeys.2 (hsemi' f hf)
    rw [Option.elim_some, List.splitOn_append_cons_self_of_not_mem hname',
      List.splitOn_eq_singleton hf', List.foldl_cons, List.foldl_cons, addParam_name hname.1,
      addParam_filename (hfilename f hf).1, List.foldl_nil]

theorem addHeader_contentDisposition {p : PartSpec} (hname : Quotable p.name)
    (hfilename : ∀ f ∈ p.filename, Quotable f) (hsemi : ';' ∉ p.name)
    (hsemi' : ∀ f ∈ p.filename, ';' ∉ f) :
    addHeader {} (contentDisposition p) = { name := some p.name, filename := p.filename } := by
  have hform : ';' ∉ "form-data".toList := by decide
  have hlower : toAsciiLowercase "Content-Disposition".toList = "content-disposition".toList := by
    decide
  have hsplit : (("form-data".toList ++ ';' :: params p).splitOn ';').drop 1 =
      (params p).splitOn ';' := by
    rw [List.splitOn_append_cons_self_of_not_mem hform, List.drop_one, List.tail_cons]
  rw [← foldl_addParam hname hfilename hsemi hsemi', ← hsplit]
  unfold addHeader
  rw [splitHeader_contentDisposition]
  exact if_pos hlower

theorem addHeader_contentType (ct : Text) (found : PartMeta) :
    addHeader found (contentTypeLine ct) = { found with contentType := some (trim ct) } := by
  have hcut : cutAt ':' (contentTypeLine ct) = some ("Content-Type".toList, ' ' :: ct) :=
    cutAt_eq_some_iff.mpr ⟨rfl, by decide⟩
  have hvalue : trim (' ' :: ct) = trim ct := by
    rw [trim, List.dropWhile_cons_of_pos (by decide), ← trim]
  have hkey : trim "Content-Type".toList = "Content-Type".toList := by decide
  unfold addHeader
  rw [splitHeader_trim, splitHeader, hcut, Option.map_some]
  dsimp only
  rw [hkey, hvalue, if_neg (by decide), if_pos (by decide)]

theorem notMem_contentDisposition {p : PartSpec} (hname : Quotable p.name)
    (hfilename : ∀ f ∈ p.filename, Quotable f) : '\r' ∉ contentDisposition p := by
  unfold contentDisposition
  cases hf : p.filename with
  | none => simp [hname.2.1]
  | some f => simp [hname.2.1, (hfilename f hf).2.1]

theorem notMem_contentTypeLine {ct : Text} (h : '\r' ∉ ct) : '\r' ∉ contentTypeLine ct := by
  unfold contentTypeLine
  simp [h]

theorem parseHeaders_headerBlock {p : PartSpec} {boundary : Text} (h : p.Legal boundary)
    (hsemi : ';' ∉ p.name) (hsemi' : ∀ f ∈ p.filename, ';' ∉ f) :
    parseHeaders (encodeUtf8 (headerBlock p)) =
      .ok (p.name, p.filename, p.contentType.map trim) := by
  have hline := notMem_contentDisposition h.name h.filename
  have hfirst := addHeader_contentDisposition h.name h.filename hsemi hsemi'
  have hfound : (splitCrlf (headerBlock p)).foldl addHeader {} =
      ⟨some p.name, p.filename, p.contentType.map trim⟩ := by
    unfold headerBlock
    cases hct : p.contentType with
    | none =>
      rw [Option.elim_none, List.append_nil, splitCrlf_last hline, List.foldl_cons, hfirst]
      rfl
    | some ct =>
      have hlast := notMem_contentTypeLine (h.contentType ct hct).1
      rw [Option.elim_some, crlf, List.cons_append, List.singleton_append, splitCrlf_cons hline,
        splitCrlf_last hlast, List.foldl_cons, hfirst, List.foldl_cons, addHeader_contentType]
      rfl
  unfold parseHeaders
  rw [decodeUtf8_encodeUtf8]
  dsimp only
  rw [hfound]

end Headers

section Wire

def dash (boundary : Text) : Bytes := 45 :: 45 :: encodeUtf8 boundary

/-- What stands behind a boundary, with the parts that are still to come. -/
def wire (boundary : Text) : List PartSpec → Bytes
  | [] => encodeUtf8 "--\r\n".toList
  | p :: parts => 13 :: 10 :: (encodeUtf8 (headerBlock p) ++ 13 :: 10 :: 13 :: 10 ::
      (p.body ++ (13 :: 10 :: dash boundary) ++ wire boundary parts))

theorem encodeUtf8_crlf : encodeUtf8 crlf = [13, 10] := by decide

theorem encodeUtf8_dashes : encodeUtf8 "--".toList = [45, 45] := by decide

theorem buildPart_eq (boundary : Text) (p : PartSpec) :
    buildPart boundary p = dash boundary ++ 13 :: 10 :: (encodeUtf8 (headerBlock p) ++
      13 :: 10 :: 13 :: 10 :: (p.body ++ [13, 10])) := by
  unfold buildPart headerBlock
  cases p.contentType with
  | none =>
    simp only [Option.elim_none, List.append_assoc, encodeUtf8_dashes, encodeUtf8_append,
      encodeUtf8_crlf, encodeUtf8_nil, dash, List.cons_append, List.nil_append]
  | some ct =>
    simp only [Option.elim_some, List.append_assoc, encodeUtf8_dashes, encodeUtf8_append,
      encodeUtf8_crlf, dash, List.cons_append, List.nil_append]

theorem build_eq (boundary : Text) (parts : List PartSpec) :
    build boundary parts = dash boundary ++ wire boundary parts := by
  induction parts with
  | nil =>
    rw [build, List.flatMap_nil, List.nil_append, encodeUtf8_append, encodeUtf8_append,
      encodeUtf8_dashes]
    rfl
  | cons p parts ih =>
    rw [build, List.flatMap_cons, List.append_assoc, ← build, ih, buildPart_eq, wire]
    simp only [List.append_assoc, List.cons_append, List.nil_append]

theorem find_of_drop {haystack needle rest : Bytes} {start i : Nat}
    (hrest : haystack.drop start = rest) (hstart : start ≤ haystack.length) (hne : needle ≠ [])
    (hfirst : firstAt needle rest = some i) : find haystack needle start = some (start + i) := by
  rw [find, if_neg (by simp [hne, hstart]), hrest, hfirst, Option.map_some, Nat.add_comm]

theorem slice_of_drop {body piece rest : Bytes} {start : Nat}
    (h : body.drop start = piece ++ rest) (hstart : start ≤ body.length) :
    slice body start (start + piece.length) = .ok piece := by
  have hlen := congrArg List.length h
  rw [List.length_drop, List.length_append] at hlen
  rw [slice_eq (Nat.le_add_right _ _) (by omega), List.drop_take, h]
  simp

theorem firstAt_blankLine (rest : Bytes) :
    firstAt [13, 10, 13, 10] (13 :: 10 :: 13 :: 10 :: rest) = some 0 :=
  firstAt_here ⟨rest, rfl⟩

/-- The blank line behind lines that hold no carriage return. -/
theorem firstAt_blank {line : Bytes} (h : 13 ∉ line) (rest : Bytes) :
    firstAt [13, 10, 13, 10] (line ++ 13 :: 10 :: 13 :: 10 :: rest) = some line.length := by
  rw [firstAt_append h, firstAt_blankLine]
  rfl

theorem firstAt_blank_two {first second : Bytes} (h : 13 ∉ first) (h' : 13 ∉ second)
    (hne : second ≠ []) (rest : Bytes) :
    firstAt [13, 10, 13, 10] (first ++ 13 :: 10 :: (second ++ 13 :: 10 :: 13 :: 10 :: rest)) =
      some (first.length + (second.length + 2)) := by
  have hnot : ¬ [13, 10, 13, 10] <+: 13 :: 10 :: (second ++ 13 :: 10 :: 13 :: 10 :: rest) := by
    intro hp
    cases second with
    | nil => exact hne rfl
    | cons b second =>
      have hb := (List.cons_prefix_cons.mp (List.cons_prefix_cons.mp
        (List.cons_prefix_cons.mp hp).2).2).1
      rw [← hb] at h'
      exact h' (List.mem_cons_self ..)
  have hfront : 13 ∉ 10 :: second := by simp [h']
  rw [firstAt_append h, firstAt_cons hnot, ← List.cons_append, firstAt_append hfront,
    firstAt_blankLine]
  rfl

theorem firstAt_headerBlock {p : PartSpec} {boundary : Text} (h : p.Legal boundary)
    (rest : Bytes) :
    firstAt [13, 10, 13, 10] (encodeUtf8 (headerBlock p) ++ 13 :: 10 :: 13 :: 10 :: rest) =
      some (encodeUtf8 (headerBlock p)).length := by
  have hcr : ∀ {s : Text}, '\r' ∉ s → 13 ∉ encodeUtf8 s := fun hs hb =>
    hs ((mem_encodeUtf8_ascii (d := '\r') (by decide)).mp hb)
  have hfirst := hcr (notMem_contentDisposition h.name h.filename)
  unfold headerBlock
  cases hct : p.contentType with
  | none =>
    rw [Option.elim_none, List.append_nil]
    exact firstAt_blank hfirst rest
  | some ct =>
    have hsecond := hcr (notMem_contentTypeLine (h.contentType ct hct).1)
    have hne : encodeUtf8 (contentTypeLine ct) ≠ [] := by
      unfold contentTypeLine
      simp
    have hboth := firstAt_blank_two hfirst hsecond hne rest
    rw [Option.elim_some, encodeUtf8_append, encodeUtf8_append, encodeUtf8_crlf, List.append_assoc,
      List.append_assoc, List.cons_append, List.cons_append, List.nil_append, hboth]
    simp only [List.length_append, List.length_cons, List.length_nil]
    congr 1
    omega

theorem le_length_of_drop {body rest : Bytes} {pos : Nat} (h : body.drop pos = rest)
    (hne : rest ≠ []) : pos ≤ body.length := by
  by_contra hlt
  apply hne
  rw [← h, List.drop_eq_nil_of_le (by omega)]

theorem readPart_nil {body : Bytes} {boundary : Text} {pos : Nat}
    (h : body.drop pos = wire boundary []) : readPart body (dash boundary) pos = .ok none := by
  have hwire : wire boundary [] = [45, 45, 13, 10] := by
    rw [wire]
    decide
  rw [hwire] at h
  have hpos := le_length_of_drop h (by simp)
  rw [readPart, sliceFrom_eq hpos, h]
  rfl

/-- The turn of the loop that reads a part comes to the next boundary. -/
theorem readPart_cons {body : Bytes} {boundary : Text} {p : PartSpec} {parts : List PartSpec}
    {pos : Nat} (h : body.drop pos = wire boundary (p :: parts)) (hp : p.Legal boundary)
    (hboundary : '\r' ∉ boundary) (hsemi : ';' ∉ p.name) (hsemi' : ∀ f ∈ p.filename, ';' ∉ f) :
    ∃ next, readPart body (dash boundary) pos = .ok (some (p.received, next)) ∧
      body.drop next = wire boundary parts := by
  rw [wire] at h
  have hpos := le_length_of_drop h (by simp)
  have hskip : skipWs body pos = pos := by
    rw [skipWs, h]
    rfl
  have hheaders : body.drop (pos + 2) = encodeUtf8 (headerBlock p) ++ 13 :: 10 :: 13 :: 10 ::
      (p.body ++ (13 :: 10 :: dash boundary) ++ wire boundary parts) := by
    rw [← List.drop_drop, h]
    rfl
  have hstart := le_length_of_drop hheaders (by simp)
  have hheaderEnd := find_of_drop hheaders hstart (by simp) (firstAt_headerBlock hp _)
  have hslice := slice_of_drop hheaders hstart
  have hcontent : body.drop (pos + 2 + (encodeUtf8 (headerBlock p)).length + 4) =
      p.body ++ (13 :: 10 :: dash boundary) ++ wire boundary parts := by
    rw [← List.drop_drop, drop_of_drop hheaders]
    rfl
  have hstart' := le_length_of_drop hcontent (by simp)
  have hcr : 13 ∉ 10 :: dash boundary := by
    have hb : 13 ∉ encodeUtf8 boundary := fun hb =>
      hboundary ((mem_encodeUtf8_ascii (d := '\r') (by decide)).mp hb)
    simp [dash, hb]
  have hword : encodeUtf8 ("\r\n--".toList ++ boundary) = 13 :: 10 :: dash boundary := by
    rw [encodeUtf8_append]
    rfl
  have hbody : ¬ 13 :: 10 :: dash boundary <:+: p.body := by
    rw [← hword]
    exact hp.body
  have hbodyEnd := find_of_drop hcontent hstart' (by simp) (firstAt_of_absent hcr hbody)
  rw [List.append_assoc] at hcontent
  have hslice' := slice_of_drop hcontent hstart'
  have hclosed : ∀ rest, ([45, 45] : Bytes).isPrefixOf (13 :: rest) = false := fun _ => rfl
  have hopened : ∀ rest, ([13, 10] : Bytes).isPrefixOf (13 :: 10 :: rest) = true := by
    intro rest
    cases rest <;> rfl
  have hshort : ¬ maxPartHeaderBytes <
      pos + 2 + (encodeUtf8 (headerBlock p)).length - (pos + 2) := by
    rw [Nat.add_sub_cancel_left]
    exact Nat.not_lt.mpr hp.headers
  refine ⟨_, ?_, drop_of_drop (drop_of_drop hcontent)⟩
  rw [readPart]
  simp only [sliceFrom_eq hpos, hskip, h, hclosed, hopened, hheaderEnd, hslice, hbodyEnd, hslice',
    parseHeaders_headerBlock hp hsemi hsemi', hshort, bind, Except.bind, pure, Except.pure, if_true,
    if_false, Bool.false_eq_true]
  rfl

theorem partsFrom_wire {body : Bytes} {boundary : Text} {parts : List PartSpec} {pos : Nat}
    {read : List RawPart} (h : body.drop pos = wire boundary parts)
    (hparts : ∀ p ∈ parts, p.Legal boundary ∧ ';' ∉ p.name ∧ ∀ f ∈ p.filename, ';' ∉ f)
    (hboundary : '\r' ∉ boundary) (hfew : read.length + parts.length ≤ maxParts) :
    partsFrom body (dash boundary) read pos = .ok (read ++ parts.map PartSpec.received) := by
  induction parts generalizing pos read with
  | nil =>
    rw [partsFrom_eq, readPart_nil h, List.map_nil, List.append_nil]
  | cons p parts ih =>
    rw [List.forall_mem_cons] at hparts
    obtain ⟨⟨hp, hsemi, hsemi'⟩, hparts⟩ := hparts
    obtain ⟨next, hread, hnext⟩ := readPart_cons h hp hboundary hsemi hsemi'
    rw [List.length_cons] at hfew
    have hroom : ¬ maxParts ≤ read.length := by omega
    have hfew' : (read ++ [p.received]).length + parts.length ≤ maxParts := by
      rw [List.length_append, List.length_singleton]
      omega
    have hrest := ih hnext hparts hfew'
    rw [partsFrom_eq, hread]
    dsimp only
    rw [if_neg hroom, hrest, List.append_assoc, List.map_cons, List.singleton_append]

theorem notMem_boundary {boundary : Text} (h : ∀ c ∈ boundary, isBoundaryChar c = true) :
    '\r' ∉ boundary := by
  intro hmem
  have hlegal := h '\r' hmem
  revert hlegal
  decide

end Wire

/-- A form that is built is read back, part by part, each content type without the blanks around it;
and no body whatever takes the parser out of range. -/
theorem parseParts_build {boundary : Text} {parts : List PartSpec} (h : LegalForm boundary parts)
    (hsemi : ∀ p ∈ parts, ';' ∉ p.name ∧ ∀ f ∈ p.filename, ';' ∉ f) (body other : Bytes) :
    parseParts (build boundary parts) (encodeUtf8 boundary) = .ok (parts.map PartSpec.received) ∧
      parseParts body other ≠ .error .outOfRange := by
  have hparts : ∀ p ∈ parts, p.Legal boundary ∧ ';' ∉ p.name ∧ ∀ f ∈ p.filename, ';' ∉ f :=
    fun p hp => ⟨h.each p hp, hsemi p hp⟩
  have hfirst : firstAt (dash boundary) (build boundary parts) = some 0 := by
    rw [build_eq]
    exact firstAt_here (List.prefix_append _ _)
  have hne : dash boundary ≠ [] := by simp [dash]
  have hopening : find (build boundary parts) (dash boundary) 0 = some 0 :=
    find_of_drop List.drop_zero (Nat.zero_le _) hne hfirst
  have hbehind : (build boundary parts).drop (0 + (dash boundary).length) =
      wire boundary parts := by
    apply drop_of_drop
    rw [List.drop_zero, build_eq]
  have hfew : ([] : List RawPart).length + parts.length ≤ maxParts := by
    rw [List.length_nil, Nat.zero_add]
    exact h.few
  have hloop := partsFrom_wire hbehind hparts (notMem_boundary h.chars) hfew
  rw [List.nil_append] at hloop
  refine ⟨?_, parseParts_inRange body other⟩
  rw [← hloop]
  unfold parseParts
  rw [← dash, hopening]

/-- A file with a blank in front of its content type. -/
def blankType : PartSpec := ⟨['n'], some ['f', ':'], some [' ', 't'], [13, 10, 45, 45, 255]⟩

theorem legalForm_blankType : LegalForm ['b'] [blankType] where
  chars := by
    intro c hc
    cases List.mem_singleton.mp hc
    decide
  few := by
    rw [List.length_singleton]
    exact Nat.le_of_ble_eq_true rfl
  each := by
    intro p hp
    cases List.mem_singleton.mp hp
    constructor
    · exact ⟨by decide, by decide, by decide⟩
    · intro f hf
      cases hf
      exact ⟨by decide, by decide, by decide⟩
    · intro ct hct
      cases hct
      decide
    · decide
    · decide

theorem parseParts_build_blankType :
    parseParts (build ['b'] [blankType]) (encodeUtf8 ['b']) = .ok [blankType.received] ∧
      parseParts [] [] ≠ .error .outOfRange := by
  refine parseParts_build legalForm_blankType ?_ [] []
  intro p hp
  cases List.mem_singleton.mp hp
  refine ⟨by decide, ?_⟩
  intro f hf
  cases hf
  decide

def PartSpec.asSent (p : PartSpec) : RawPart := ⟨p.name, p.filename, p.contentType, p.body⟩

/-- The blank in front of a content type does not come back. -/
theorem not_parseParts_asSent : ¬ ∀ (boundary : Text) (parts : List PartSpec),
    LegalForm boundary parts → parseParts (build boundary parts) (encodeUtf8 boundary) =
      .ok (parts.map PartSpec.asSent) := by
  intro h
  have hread : parseParts (build ['b'] [blankType]) (encodeUtf8 ['b']) =
      .ok [blankType.received] := by decide +kernel
  have hsent := h ['b'] [blankType] legalForm_blankType
  rw [hread] at hsent
  have hct := congrArg (fun parts : List RawPart => parts.map RawPart.contentType)
    (Except.ok.inj hsent)
  revert hct
  decide

end Kernway.Multipart
