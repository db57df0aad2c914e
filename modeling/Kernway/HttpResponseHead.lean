import Kernway.Decimal
import Kernway.HeadLines
import Kernway.HttpResponse

namespace Kernway

theorem encodeUtf8_colon : encodeUtf8 ": ".toList = [58, 32] := by decide

theorem encodeUtf8_lineEnd : encodeUtf8 "\r\n".toList = [13, 10] := by decide

theorem encodeUtf8_headEnd : encodeUtf8 "\r\n\r\n".toList = [13, 10, 13, 10] := by decide

theorem encodeUtf8_contentLength : encodeUtf8 "content-length: ".toList =
    encodeUtf8 "content-length".toList ++ [58, 32] := by decide

theorem encodeUtf8_connection : encodeUtf8 "\r\nconnection: ".toList =
    [13, 10] ++ encodeUtf8 "connection".toList ++ [58, 32] := by decide

theorem contentLength_self :
    eqIgnoreAsciiCase "content-length".toList "content-length".toList = true := by decide

theorem connection_other :
    eqIgnoreAsciiCase "connection".toList "content-length".toList = false := by decide

theorem httpVersion_clean : '\n' ∉ "HTTP/1.1 ".toList := by decide

theorem httpVersion_ne_nil : encodeUtf8 "HTTP/1.1 ".toList ≠ [] := by decide

theorem unknown_clean : '\n' ∉ "Unknown".toList := by decide

theorem statusTexts_clean : ∀ pair ∈ statusTexts, '\n' ∉ pair.2 := by decide

theorem framing_clean : ('\n' ∉ "content-length".toList ∧ ':' ∉ "content-length".toList) ∧
    '\n' ∉ "connection".toList ∧ ':' ∉ "connection".toList := by decide

theorem Connection.headerValue_clean (connection : Connection) : '\n' ∉ connection.headerValue := by
  cases connection <;> decide

namespace Response

variable (response : Response)

def statusLine : Text :=
  "HTTP/1.1 ".toList ++ decimal response.status.toUInt64 ++ " ".toList ++
    statusText response.status

/-- The headers of the answer: those of the response, and the framing that the writer adds. -/
def sent (connection : Connection) : List (Text × Text) :=
  response.kept ++ [("content-length".toList, decimal response.body.len),
    ("connection".toList, connection.headerValue)]

/-- What is written reads back as the response. -/
structure Intact (connection : Connection) : Prop where
  reads : ∃ bytes, encodeResponseWith response connection = some bytes ∧
    readMessage bytes = some (encodeUtf8 response.statusLine,
      (response.sent connection).map (fun pair => (encodeUtf8 pair.1, encodeUtf8 pair.2)),
      response.bodyBytes)
  length : ((response.sent connection).filter fun pair =>
      eqIgnoreAsciiCase pair.1 "content-length".toList) =
    [("content-length".toList, decimal response.body.len)]

/-- No line feed, and no colon in the name. -/
def CleanHeader (pair : Text × Text) : Prop := '\n' ∉ pair.1 ∧ ':' ∉ pair.1 ∧ '\n' ∉ pair.2

theorem encodeHeader_eq (pair : Text × Text) :
    encodeHeader pair = encodeUtf8 pair.1 ++ 58 :: 32 :: encodeUtf8 pair.2 ++ [13, 10] := by
  rw [encodeHeader, encodeUtf8_colon, encodeUtf8_lineEnd]
  simp

theorem encodeResponseWith_eq (connection : Connection) :
    encodeResponseWith response connection = some (encodeUtf8 response.statusLine ++
      13 :: 10 :: ((response.sent connection).flatMap encodeHeader ++
        13 :: 10 :: response.bodyBytes)) := by
  unfold encodeResponseWith encodeHead statusLine sent
  simp only [itoa_eq, Option.bind_eq_bind, Option.bind_some,
    Option.pure_def, Option.map_some, -String.reduceToList, encodeUtf8_lineEnd,
    encodeUtf8_contentLength, encodeUtf8_connection, encodeUtf8_headEnd,
    encodeUtf8_append, List.flatMap_append, List.flatMap_cons, List.flatMap_nil,
    encodeHeader_eq, List.append_assoc, List.cons_append, List.nil_append, List.append_nil]

theorem sent_length (connection : Connection) :
    ((response.sent connection).filter fun pair =>
      eqIgnoreAsciiCase pair.1 "content-length".toList) =
    [("content-length".toList, decimal response.body.len)] := by
  have hkept : response.kept.filter (fun pair =>
      eqIgnoreAsciiCase pair.1 "content-length".toList) = [] := by
    rw [List.filter_eq_nil_iff]
    intro pair hpair
    have hnot := (List.mem_filter.mp hpair).2
    unfold transportHeader at hnot
    simp only [Bool.not_or, Bool.and_eq_true, Bool.not_eq_true'] at hnot
    exact Bool.not_eq_true _ ▸ hnot.2
  unfold sent
  rw [List.filter_append, hkept, List.nil_append]
  simp only [List.filter_cons, List.filter_nil, -String.reduceToList, contentLength_self,
    connection_other, if_true, Bool.false_eq_true, if_false]

theorem lineFeed_notMem_decimal (n : UInt64) : '\n' ∉ decimal n ∧ ':' ∉ decimal n :=
  ⟨notMem_toDigits (by decide) n.toNat, notMem_toDigits (by decide) n.toNat⟩

theorem statusLine_clean : '\n' ∉ response.statusLine := by
  have htext : '\n' ∉ statusText response.status := by
    unfold statusText
    cases hl : statusTexts.lookup response.status with
    | none => exact unknown_clean
    | some text =>
      obtain ⟨_, _, heq, _⟩ := List.lookup_eq_some_iff.mp hl
      exact statusTexts_clean (response.status, text) (heq ▸ by simp)
  have hdecimal := (lineFeed_notMem_decimal response.status.toUInt64).1
  intro hmem
  unfold statusLine at hmem
  rw [List.mem_append, List.mem_append, List.mem_append] at hmem
  rcases hmem with ((hmem | hmem) | hmem) | hmem
  · exact httpVersion_clean hmem
  · exact hdecimal hmem
  · exact absurd hmem (by decide)
  · exact htext hmem

theorem sent_clean {connection : Connection} (h : ∀ pair ∈ response.kept, CleanHeader pair) :
    ∀ pair ∈ response.sent connection, CleanHeader pair := by
  intro pair hpair
  rcases List.mem_append.mp hpair with hpair | hpair
  · exact h pair hpair
  rcases List.mem_cons.mp hpair with rfl | hpair
  · exact ⟨framing_clean.1.1, framing_clean.1.2, (lineFeed_notMem_decimal _).1⟩
  · obtain rfl := List.mem_singleton.mp hpair
    exact ⟨framing_clean.2.1, framing_clean.2.2, connection.headerValue_clean⟩

/-- Clean headers are read back. -/
theorem intact_of_clean {connection : Connection}
    (h : ∀ pair ∈ response.kept, CleanHeader pair) : response.Intact connection := by
  refine ⟨⟨_, encodeResponseWith_eq response connection, ?_⟩, sent_length response connection⟩
  have hfirst : 10 ∉ encodeUtf8 response.statusLine ∧ encodeUtf8 response.statusLine ≠ [] := by
    refine ⟨fun hmem => statusLine_clean response ?_, ?_⟩
    · exact (mem_encodeUtf8_ascii (d := '\n') (by decide)).mp hmem
    · unfold statusLine
      simp only [encodeUtf8_append, ne_eq, List.append_eq_nil_iff, not_and, -String.reduceToList]
      exact fun hnil => absurd hnil.1.1 httpVersion_ne_nil
  have hfields : ∀ field ∈ (response.sent connection).map
      (fun pair => (encodeUtf8 pair.1, encodeUtf8 pair.2)),
      58 ∉ field.1 ∧ 10 ∉ field.1 ∧ 10 ∉ field.2 := by
    intro field hfield
    obtain ⟨pair, hpair, rfl⟩ := List.mem_map.mp hfield
    obtain ⟨hname, hcolon, hvalue⟩ := sent_clean response h pair hpair
    refine ⟨fun hm => hcolon ?_, fun hm => hname ?_, fun hm => hvalue ?_⟩
    · exact (mem_encodeUtf8_ascii (d := ':') (by decide)).mp hm
    · exact (mem_encodeUtf8_ascii (d := '\n') (by decide)).mp hm
    · exact (mem_encodeUtf8_ascii (d := '\n') (by decide)).mp hm
  have hread := readMessage_lines hfirst hfields response.bodyBytes
  rw [List.flatMap_map] at hread
  have hheaders : (response.sent connection).flatMap encodeHeader =
      (response.sent connection).flatMap fun pair =>
        encodeUtf8 pair.1 ++ 58 :: 32 :: encodeUtf8 pair.2 ++ [13, 10] := by
    congr 1
    funext pair
    exact encodeHeader_eq pair
  rw [hheaders]
  exact hread

theorem clean_of_intact {connection : Connection} (h : response.Intact connection) :
    ∀ pair ∈ response.kept, CleanHeader pair := by
  intro pair hpair
  obtain ⟨bytes, -, hread⟩ := h.reads
  have hmem : (encodeUtf8 pair.1, encodeUtf8 pair.2) ∈ (response.sent connection).map
      (fun pair => (encodeUtf8 pair.1, encodeUtf8 pair.2)) :=
    List.mem_map_of_mem (List.mem_append_left _ hpair)
  obtain ⟨hcolon, hname, hvalue⟩ := readMessage_clean hread hmem
  refine ⟨fun h => hname ?_, fun h => hcolon ?_, fun h => hvalue ?_⟩
  · exact (mem_encodeUtf8_ascii (d := '\n') (by decide)).mpr h
  · exact (mem_encodeUtf8_ascii (d := ':') (by decide)).mpr h
  · exact (mem_encodeUtf8_ascii (d := '\n') (by decide)).mpr h

end Response

def splitValue : Text := "a\r\nset-cookie: b".toList

theorem insert_splitValue :
    (({} : Headers).insert "x-name".toList splitValue).isSome = true := by decide

theorem xName_stored : storedText true "x-name".toList = "x-name".toList ∧
    transportHeader "x-name".toList = false ∧ '\n' ∈ splitValue := by decide

end Kernway
