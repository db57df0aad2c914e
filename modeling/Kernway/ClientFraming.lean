import Kernway.ClientBoundary

namespace Kernway.HttpClient

/-- The values of all headers of this name. -/
def Head.values (head : Head) (name : Text) : List Bytes :=
  (head.fields.filter fun field =>
    field.1.map asciiLowerByte == (encodeUtf8 name).map asciiLowerByte).map Prod.snd

/-- The elements of comma-separated lists. -/
def listElements (values : List Bytes) : List Bytes :=
  (values.flatMap fun value => (value.splitOn 44).map trimRange).filter (· ≠ [])

def isDigitByte (b : UInt8) : Bool := 48 ≤ b && b ≤ 57

/-- A string of digits. -/
def digitsOf (bytes : Bytes) : Option Nat :=
  if bytes ≠ [] ∧ bytes.all isDigitByte then some (bytes.foldl (fun n b => 10 * n + (b.toNat - 48)) 0)
  else none

/-- How the length of a body is given. -/
inductive Framing
  | bodiless
  | length (n : Nat)
  | chunked
  | untilClose
  | invalid
  deriving DecidableEq

/-- The length that all of the `Content-Length` values give, if it is one. -/
def declaredLength (values : List Bytes) : Framing :=
  match (listElements values).mapM digitsOf with
  | some (n :: ns) => if ∀ m ∈ ns, m = n then .length n else .invalid
  | _ => .invalid

/-- RFC 9112, section 6.3. -/
def framing (method : Method) (head : Head) : Framing :=
  if isBodiless method head.status then .bodiless
  else if head.values "transfer-encoding".toList ≠ [] then
    if (listElements (head.values "transfer-encoding".toList)).getLast?.any
      (ignoreCaseEq · "chunked".toList) then .chunked
    else .untilClose
  else if head.values "content-length".toList ≠ [] then
    declaredLength (head.values "content-length".toList)
  else .untilClose

/-- The line of a chunk: the digits of its size, and an extension behind a semicolon. -/
inductive SizeLine : Bytes → Nat → Prop
  | plain {digits : Text} {values : List Nat} (hne : digits ≠ [])
      (hvalues : digits.mapM hexDigit = some values) :
      SizeLine (encodeUtf8 digits) (values.foldl (fun n d => 16 * n + d) 0)
  | extended {digits blanks : Text} {values : List Nat} (hne : digits ≠ [])
      (hvalues : digits.mapM hexDigit = some values) (hblanks : ∀ c ∈ blanks, c = ' ' ∨ c = '\t')
      (ext : Bytes) : SizeLine (encodeUtf8 digits ++ encodeUtf8 blanks ++ 59 :: ext)
        (values.foldl (fun n d => 16 * n + d) 0)

/-- A chunked body from its first chunk to the end of its trailers, and what it stands for. -/
inductive ChunkedBody : Bytes → Bytes → Prop
  | last {line trailers : Bytes} (hline : findCrlf line = none) (hsize : SizeLine line 0)
      (htrailers : Trailers trailers) : ChunkedBody (line ++ 13 :: 10 :: trailers) []
  | chunk {line data more body : Bytes} {n : Nat} (hline : findCrlf line = none)
      (hsize : SizeLine line n) (hpos : 0 < n) (hdata : data.length = n)
      (hmore : ChunkedBody more body) :
      ChunkedBody (line ++ 13 :: 10 :: (data ++ 13 :: 10 :: more)) (data ++ body)

/-- The bytes of a stream that are a body, what it stands for, and what follows it; one that lasts
until the close has the rest of a stream that was closed. -/
def Prescribed (closed : Prop) (f : Framing) (used rest body : Bytes) : Prop :=
  match f with
  | .bodiless => used = [] ∧ body = []
  | .length n => used.length = n ∧ body = used
  | .chunked => ChunkedBody used body
  | .untilClose => rest = [] ∧ closed ∧ body = used
  | .invalid => False

theorem splitOn_head {α : Type} [DecidableEq α] {c : α} {s : List α} (h : c ∉ s) :
    (s.splitOn c).headD [] = s ∧ ∀ rest, ((s ++ c :: rest).splitOn c).headD [] = s := by
  rw [List.splitOn_eq_singleton h]
  refine ⟨rfl, ?_⟩
  intro rest
  rw [List.splitOn_append_cons_self_of_not_mem h]
  rfl

/-- Bytes of characters below 128 are those characters. -/
theorem eq_append_of_encodeUtf8 {t s : Text} {rest : Bytes} (ht : ∀ c ∈ t, c.toNat ≤ 127)
    (h : encodeUtf8 s = encodeUtf8 t ++ rest) : ∃ s', s = t ++ s' ∧ encodeUtf8 s' = rest := by
  induction t generalizing s with
  | nil => exact ⟨s, rfl, h⟩
  | cons c t ih =>
    have hc := ht c (List.mem_cons_self ..)
    rw [encodeUtf8_cons, utf8EncodeChar_ascii hc] at h
    cases s with
    | nil => cases h
    | cons d s =>
      obtain ⟨b, bs, hbytes⟩ := List.exists_cons_of_ne_nil (utf8EncodeChar_ne_nil d)
      rw [encodeUtf8_cons, hbytes] at h
      obtain ⟨hb, hrest⟩ := List.cons.inj h
      have hd : d.toNat = c.toNat := by
        apply mem_utf8EncodeChar_ascii hc
        rw [hbytes, hb]
        exact List.mem_cons_self ..
      obtain rfl := Char.toNat_inj.mp hd
      rw [utf8EncodeChar_ascii hc] at hbytes
      obtain ⟨-, rfl⟩ := List.cons.inj hbytes
      obtain ⟨s', rfl, hs'⟩ := ih (fun x hx => ht x (List.mem_cons_of_mem d hx)) hrest
      exact ⟨s', rfl, hs'⟩

theorem hexDigit_plain {c : Char} {d : Nat} (h : hexDigit c = some d) :
    c.toNat ≤ 127 ∧ isWhitespace c = false ∧ c ≠ ';' ∧ c ≠ '+' := by
  have hrange : ∀ {a b : Char}, a ≤ c → c ≤ b → a.toNat ≤ c.toNat ∧ c.toNat ≤ b.toNat := by
    intro a b ha hb
    exact ⟨ha, hb⟩
  have hbounds : (48 ≤ c.toNat ∧ c.toNat ≤ 57) ∨ (97 ≤ c.toNat ∧ c.toNat ≤ 102) ∨
      (65 ≤ c.toNat ∧ c.toNat ≤ 70) := by
    unfold hexDigit at h
    split at h
    next hc => exact .inl (hrange hc.1 hc.2)
    next =>
      split at h
      next hc => exact .inr (.inl (hrange hc.1 hc.2))
      next =>
        split at h
        next hc => exact .inr (.inr (hrange hc.1 hc.2))
        next => cases h
  refine ⟨by omega, ?_, ?_, ?_⟩
  · simp only [isWhitespace, Bool.or_eq_false_iff, Bool.and_eq_false_iff, decide_eq_false_iff_not,
      beq_eq_false_iff_ne]
    omega
  · rintro rfl
    simp at hbounds
  · rintro rfl
    simp at hbounds

theorem hexDigits_plain {digits : Text} {values : List Nat}
    (h : digits.mapM hexDigit = some values) : ∀ c ∈ digits, ∃ d, hexDigit c = some d := by
  induction digits generalizing values with
  | nil => nofun
  | cons c digits ih =>
    rw [List.mapM_cons] at h
    obtain ⟨d, hd, h⟩ := Option.bind_eq_some_iff.mp h
    obtain ⟨ds, hds, -⟩ := Option.bind_eq_some_iff.mp h
    exact List.forall_mem_cons.mpr ⟨⟨d, hd⟩, ih hds⟩

theorem trim_digits_blanks {digits blanks : Text}
    (hdigits : ∀ c ∈ digits, isWhitespace c = false)
    (hblanks : ∀ c ∈ blanks, isWhitespace c = true) (hne : digits ≠ []) :
    trim (digits ++ blanks) = digits := by
  obtain ⟨c, rest, rfl⟩ := List.exists_cons_of_ne_nil hne
  have hc := hdigits c (List.mem_cons_self ..)
  have hright : ((c :: rest) ++ blanks).rdropWhile isWhitespace = c :: rest := by
    rw [List.rdropWhile, List.reverse_append,
      List.dropWhile_append_of_pos (fun d hd => hblanks d (List.mem_reverse.mp hd))]
    have hlast : (c :: rest).rdropWhile isWhitespace = c :: rest := by
      rw [List.rdropWhile_eq_self_iff]
      intro hne
      simp [hdigits _ (List.getLast_mem hne)]
    exact hlast
  rw [trim, List.cons_append, List.dropWhile_cons_of_neg (by simp [hc])]
  exact hright

theorem parseHex_eq_some {c : Char} {rest : Text} {m : Nat} (hc : c ≠ '+')
    (h : parseHex (c :: rest) = some m) : ∃ values, (c :: rest).mapM hexDigit = some values ∧
      m = values.foldl (fun n d => 16 * n + d) 0 := by
  unfold parseHex at h
  extract_lets digits at h
  have hdigits : digits = c :: rest := by
    unfold digits
    split
    next heq => exact absurd (List.cons.inj heq).1 hc
    next => rfl
  obtain ⟨values, hvalues, h⟩ := Option.bind_eq_some_iff.mp h
  rw [hdigits] at hvalues
  have hvalue := (Option.ite_none_right_eq_some.mp h).2
  exact ⟨values, hvalues, (Option.some.inj hvalue).symm⟩

/-- `usize::from_str_radix` of digits before blanks, where it fits. -/
theorem parseHex_trim {digits blanks : Text} {values : List Nat} {m : Nat} (hne : digits ≠ [])
    (hvalues : digits.mapM hexDigit = some values) (hblanks : ∀ c ∈ blanks, isWhitespace c = true)
    (h : parseHex (trim (digits ++ blanks)) = some m) :
    m = values.foldl (fun n d => 16 * n + d) 0 := by
  have hplain : ∀ c ∈ digits, isWhitespace c = false ∧ c ≠ '+' := by
    intro c hc
    obtain ⟨d, hd⟩ := hexDigits_plain hvalues c hc
    obtain ⟨-, hspace, -, hplus⟩ := hexDigit_plain hd
    exact ⟨hspace, hplus⟩
  rw [trim_digits_blanks (fun c hc => (hplain c hc).1) hblanks hne] at h
  obtain ⟨c, rest, rfl⟩ := List.exists_cons_of_ne_nil hne
  have hplus := (hplain c (List.mem_cons_self ..)).2
  obtain ⟨values', hvalues', rfl⟩ := parseHex_eq_some hplus h
  rw [hvalues] at hvalues'
  rw [Option.some.inj hvalues']

/-- What `decode_chunked` reads a chunk's line as is what it says. -/
theorem SizeLine.parseSize_eq {line : Bytes} {n m : Nat} (h : SizeLine line n)
    (hsize : parseSize line = some m) : m = n := by
  obtain ⟨s, hdecode, hparse⟩ := Option.bind_eq_some_iff.mp hsize
  have hs := encodeUtf8_of_decodeUtf8 hdecode
  clear hsize hdecode
  cases h with
  | @plain digits values hne hvalues =>
    obtain rfl := encodeUtf8_injective hs
    have hsemi : ';' ∉ s := by
      intro hmem
      obtain ⟨d, hd⟩ := hexDigits_plain hvalues _ hmem
      exact (hexDigit_plain hd).2.2.1 rfl
    rw [(splitOn_head hsemi).1, ← List.append_nil s] at hparse
    exact parseHex_trim hne hvalues (fun c hc => absurd hc List.not_mem_nil) hparse
  | @extended digits blanks values hne hvalues hblanks ext =>
    have hascii : ∀ c ∈ digits ++ blanks ++ [';'], c.toNat ≤ 127 := by
      intro c hc
      rcases List.mem_append.mp hc with hc | hc
      · rcases List.mem_append.mp hc with hc | hc
        · obtain ⟨d, hd⟩ := hexDigits_plain hvalues c hc
          exact (hexDigit_plain hd).1
        · rcases hblanks c hc with rfl | rfl <;> decide
      · obtain rfl := List.mem_singleton.mp hc
        decide
    have hbytes : encodeUtf8 s = encodeUtf8 (digits ++ blanks ++ [';']) ++ ext := by
      have hsemi : encodeUtf8 [';'] = [59] := by decide
      rw [hs, encodeUtf8_append, encodeUtf8_append, hsemi, List.append_assoc _ [59]]
      rfl
    obtain ⟨s', rfl, -⟩ := eq_append_of_encodeUtf8 hascii hbytes
    have hsemi : ';' ∉ digits ++ blanks := by
      intro hmem
      rcases List.mem_append.mp hmem with hmem | hmem
      · obtain ⟨d, hd⟩ := hexDigits_plain hvalues _ hmem
        exact (hexDigit_plain hd).2.2.1 rfl
      · rcases hblanks _ hmem with h | h <;> cases h
    rw [List.append_assoc, List.singleton_append, (splitOn_head hsemi).2 s'] at hparse
    refine parseHex_trim hne hvalues ?_ hparse
    intro c hc
    rcases hblanks c hc with rfl | rfl <;> decide

theorem ChunkedBody.length_lt {bytes body : Bytes} (h : ChunkedBody bytes body) :
    body.length < bytes.length := by
  induction h with
  | last hline hsize htrailers =>
    simp only [List.length_append, List.length_cons, List.length_nil]
    omega
  | chunk hline hsize hpos hdata hmore ih =>
    simp only [List.length_append, List.length_cons]
    omega

/-- What `decode_chunked` makes of a chunked body is what the body stands for. -/
theorem ChunkedBody.decodeChunkedFrom_eq {bytes body decoded : Bytes} (h : ChunkedBody bytes body)
    {pos : Nat} (hdecode : decodeChunkedFrom pos bytes = .ok (some decoded)) : decoded = body := by
  induction h generalizing pos decoded with
  | @last line trailers hline hsize htrailers =>
    rw [decodeChunkedFrom_line hline] at hdecode
    cases hparse : parseSize line with
    | none =>
      rw [hparse] at hdecode
      cases hdecode
    | some m =>
      obtain rfl := hsize.parseSize_eq hparse
      rw [hparse] at hdecode
      dsimp only at hdecode
      rw [if_pos rfl] at hdecode
      cases hdecode
      rfl
  | @chunk line data more body n hline hsize hpos hdata hmore ih =>
    rw [decodeChunkedFrom_line hline] at hdecode
    cases hparse : parseSize line with
    | none =>
      rw [hparse] at hdecode
      cases hdecode
    | some m =>
      obtain rfl := hsize.parseSize_eq hparse
      rw [hparse] at hdecode
      dsimp only at hdecode
      have htake : (data ++ 13 :: 10 :: more).take m = data := by
        rw [← hdata, List.take_left]
      have hdrop : (data ++ 13 :: 10 :: more).drop (m + 2) = more := by
        rw [← List.drop_drop, ← hdata, List.drop_left]
        rfl
      rw [if_neg (Nat.ne_of_gt hpos), htake, hdrop] at hdecode
      split at hdecode
      next => cases hdecode
      next =>
        split at hdecode
        next => cases hdecode
        next =>
          split at hdecode
          next => cases hdecode
          next =>
            obtain ⟨answer, hnext, hanswer⟩ := map_eq_ok_iff.mp hdecode
            obtain ⟨rest, rfl, rfl⟩ := Option.map_eq_some_iff.mp hanswer
            rw [ih hnext]

/-- A decoded body is shorter than the chunks that it came in. -/
theorem length_lt_of_decodeChunked {bytes body : Bytes} (hfits : bytes.length < capacity)
    (h : decodeChunked bytes = .ok (some body)) : body.length < bytes.length := by
  obtain ⟨rest, decoded, line, hchunks, hline, hsize⟩ := (decodeChunked_iff hfits).mp ⟨body, h⟩
  have hdecode := hchunks.decodeChunked_last hline hsize hfits
  rw [h] at hdecode
  obtain rfl := Option.some.inj (Except.ok.inj hdecode)
  have hlength : ∀ {bytes body rest : Bytes}, Chunks bytes body rest →
      body.length + rest.length ≤ bytes.length := by
    intro bytes body rest hchunks
    induction hchunks with
    | nil => simp
    | cons hline hsize hpos hdata hending more ih =>
      simp only [List.length_append, List.length_cons]
      omega
  have hbound := hlength hchunks
  rw [List.length_append, List.length_cons, List.length_cons] at hbound
  omega

end Kernway.HttpClient
