import Kernway.HttpHead

namespace Kernway

/-- `OWS` of the HTTP grammar: space and tab. -/
def isOws (c : Char) : Bool := c == ' ' || c == '\t'

def trimOws (s : Text) : Text := (s.dropWhile isOws).rdropWhile isOws

/-- Every field of a head by the HTTP grammar: the lines after the request line that have a colon,
each value without the `OWS` around it. The name is trimmed, so that no spelling of it hides. -/
def headerFields (head : Text) : List (Text × Text) :=
  (lines head).tail.filterMap fun line => (cutAt ':' line).map fun p => (trim p.1, trimOws p.2)

def isField (name : Text) (p : Text × Text) : Bool := eqIgnoreAsciiCase p.1 name

def transferEncoding : Text := "transfer-encoding".toList

def contentLengthName : Text := "content-length".toList

/-- The head frames a body of `len` bytes for every recipient: no `Transfer-Encoding`, and every
`Content-Length` is a string of digits for `len`, which fits the length type. -/
structure Unambiguous (head : Text) (len : Nat) : Prop where
  no_transfer_encoding : ∀ p ∈ headerFields head, isField transferEncoding p = false
  digits : ∀ p ∈ headerFields head, isField contentLengthName p = true →
    p.2 ≠ [] ∧ p.2.all isAsciiDigit = true ∧ digitsValue p.2 = len ∧ len < 2 ^ 64
  absent : (∀ p ∈ headerFields head, isField contentLengthName p = false) → len = 0

theorem dropWhile_append_cons {α : Type} {p : α → Bool} {d : α} (hd : p d = false) (a b : List α) :
    (a ++ d :: b).dropWhile p = a.dropWhile p ++ d :: b := by
  rw [List.dropWhile_append]
  split
  next h => simp [List.isEmpty_iff.mp h, hd]
  next => rfl

theorem rdropWhile_append_cons {α : Type} {p : α → Bool} {d : α} (hd : p d = false)
    (a b : List α) : (a ++ d :: b).rdropWhile p = a ++ d :: b.rdropWhile p := by
  simp [List.rdropWhile, dropWhile_append_cons hd]

theorem trim_around {w v : Text} (hw : ∀ c ∈ w, isWhitespace c = true)
    (hv : ∀ c ∈ v, isWhitespace c = true) (s : Text) : trim (w ++ s ++ v) = trim s := by
  have hleft : trim (w ++ s) = trim s := by
    rw [trim, List.dropWhile_append_of_pos hw, ← trim]
  induction v using List.reverseRecOn with
  | nil => rw [List.append_nil, hleft]
  | append_singleton v c ih =>
    rw [← List.append_assoc, trim_append_whitespace _ (hv c (by simp))]
    exact ih fun x hx => hv x (by simp [hx])

theorem trim_dropWhile (s : Text) : trim (s.dropWhile isWhitespace) = trim s := by
  rw [trim, List.dropWhile_idempotent, ← trim]

theorem trim_rdropWhile {p : Char → Bool} (hp : ∀ c, p c = true → isWhitespace c = true)
    (s : Text) : trim (s.rdropWhile p) = trim s := by
  have h := trim_around (w := []) (v := s.rtakeWhile p) (by simp)
    (fun c hc => hp c (List.mem_rtakeWhile_imp hc)) (s.rdropWhile p)
  rw [List.nil_append, List.rdropWhile_append_rtakeWhile] at h
  exact h.symm

theorem isOws_whitespace (c : Char) (h : isOws c = true) : isWhitespace c = true := by
  simp only [isOws, Bool.or_eq_true, beq_iff_eq] at h
  rcases h with rfl | rfl <;> decide

theorem trim_trimOws (s : Text) : trim (trimOws s) = trim s := by
  have h := trim_around (w := s.takeWhile isOws) (v := [])
    (fun c hc => isOws_whitespace c (List.mem_takeWhile_imp hc)) (by simp) (s.dropWhile isOws)
  rw [List.append_nil, List.takeWhile_append_dropWhile] at h
  rw [trimOws, trim_rdropWhile isOws_whitespace, h]

theorem isAsciiDigit_not_whitespace {c : Char} (h : isAsciiDigit c = true) :
    isWhitespace c = false := by
  simp only [isAsciiDigit, Bool.and_eq_true, decide_eq_true_eq] at h
  have h0 : 48 ≤ c.toNat := h.1
  have h9 : c.toNat ≤ 57 := h.2
  simp only [isWhitespace, Bool.or_eq_false_iff, Bool.and_eq_false_iff, decide_eq_false_iff_not,
    beq_eq_false_iff_ne]
  omega

theorem trim_eq_self {s : Text} (hhead : ∀ c ∈ s.head?, isWhitespace c = false)
    (hlast : ∀ c ∈ s.getLast?, isWhitespace c = false) : trim s = s := by
  have hdrop : s.dropWhile isWhitespace = s := by
    cases s with
    | nil => rfl
    | cons c s => rw [List.dropWhile_cons_of_neg (by simp [hhead c rfl])]
  rw [trim, hdrop, List.rdropWhile_eq_self_iff]
  intro hne hspace
  have hnot := hlast (s.getLast hne) (List.getLast?_eq_some_getLast hne)
  rw [hspace] at hnot
  cases hnot

theorem trim_digits {s : Text} (h : s.all isAsciiDigit = true) : trim s = s := by
  have hw : ∀ c ∈ s, ¬ isWhitespace c = true := fun c hc => by
    simp [isAsciiDigit_not_whitespace (List.all_eq_true.mp h c hc)]
  have hd : s.dropWhile isWhitespace = s := by
    cases s with
    | nil => rfl
    | cons c s => rw [List.dropWhile_cons_of_neg (hw c (by simp))]
  rw [trim, hd, List.rdropWhile_eq_self_iff]
  exact fun hl => hw _ (List.getLast_mem hl)

/-- A string of digits is parsed to its value, whatever optional whitespace surrounds it. -/
theorem parseUsize_trim {s : Text} (hne : trimOws s ≠ [])
    (hd : (trimOws s).all isAsciiDigit = true) (hlt : digitsValue (trimOws s) < 2 ^ 64) :
    parseUsize (trim s) = some (digitsValue (trimOws s)) := by
  rw [← trim_trimOws, trim_digits hd]
  generalize trimOws s = t at *
  cases t with
  | nil => exact absurd rfl hne
  | cons c t =>
    simp only [parseUsize]
    split
    next rest heq =>
      obtain ⟨rfl, rfl⟩ := List.cons.inj heq
      simp [isAsciiDigit] at hd
    next => rw [if_pos ⟨hne, hd, hlt⟩]

theorem splitHeader_trim (line : Text) : splitHeader (trim line) = splitHeader line := by
  have hcolon : isWhitespace ':' = false := by decide
  unfold splitHeader
  cases h : cutAt ':' line with
  | none =>
    have hmem : ':' ∉ trim line := fun hm => cutAt_eq_none_iff.mp h
      ((List.dropWhile_sublist _).mem ((List.rdropWhile_prefix _ _).sublist.mem hm))
    rw [cutAt_eq_none_iff.mpr hmem]
  | some p =>
    obtain ⟨a, b⟩ := p
    obtain ⟨rfl, hn⟩ := cutAt_eq_some_iff.mp h
    have htrim : trim (a ++ ':' :: b) =
        a.dropWhile isWhitespace ++ ':' :: b.rdropWhile isWhitespace := by
      rw [trim, dropWhile_append_cons hcolon, rdropWhile_append_cons hcolon]
    have hcut : cutAt ':' (trim (a ++ ':' :: b)) =
        some (a.dropWhile isWhitespace, b.rdropWhile isWhitespace) :=
      cutAt_eq_some_iff.mpr ⟨htrim, fun hm => hn ((List.dropWhile_sublist _).mem hm)⟩
    rw [hcut]
    simp only [Option.map_some, trim_dropWhile, trim_rdropWhile fun _ h => h]

/-- A field that the header loop reads is a field of the head, its value read alike. -/
theorem mem_fieldsOf {head : Text} {p : Text × Text} (h : p ∈ fieldsOf head) :
    ∃ v, (p.1, trimOws v) ∈ headerFields head ∧ p.2 = trim v := by
  obtain ⟨l, hl, hs⟩ := List.mem_filterMap.mp h
  obtain ⟨line, hline, rfl⟩ := List.mem_map.mp ((List.takeWhile_sublist _).mem hl)
  rw [splitHeader_trim, splitHeader, Option.map_eq_some_iff] at hs
  obtain ⟨⟨a, b⟩, hc, rfl⟩ := hs
  exact ⟨b, List.mem_filterMap.mpr ⟨line, hline, by simp [hc]⟩, rfl⟩

/-- Of an unambiguous head the parser uses the length, or zero where it reads no field for it. -/
theorem declaredLength_of_unambiguous {head : Text} {len : Nat} (h : Unambiguous head len) :
    declaredLength (fieldsOf head) =
      if (fieldsOf head).any (isField contentLengthName) then len else 0 := by
  unfold declaredLength
  cases hf : (fieldsOf head).reverse.find? fun p => eqIgnoreAsciiCase p.1 "content-length".toList with
  | none =>
    have hn : (fieldsOf head).any (isField contentLengthName) = false := by
      rw [List.any_eq_false]
      intro p hp
      exact List.find?_eq_none.mp hf p (List.mem_reverse.mpr hp)
    simp [hn]
  | some p =>
    have hname : isField contentLengthName p = true := List.find?_some hf
    have hmem : p ∈ fieldsOf head := by simpa using List.mem_of_find?_eq_some hf
    obtain ⟨v, hv, hp⟩ := mem_fieldsOf hmem
    obtain ⟨hne, hd, hval, hlt⟩ := h.digits _ hv hname
    rw [if_pos (List.any_eq_true.mpr ⟨p, hmem, hname⟩)]
    simp only [Option.map_some, Option.bind_some, hp]
    rw [parseUsize_trim hne hd (hval ▸ hlt), hval, Option.getD_some]

theorem Unambiguous.unique {head : Text} {len len' : Nat} (h : Unambiguous head len)
    (h' : Unambiguous head len') : len = len' := by
  by_cases hn : ∀ p ∈ headerFields head, isField contentLengthName p = false
  · rw [h.absent hn, h'.absent hn]
  · simp only [not_forall, Bool.not_eq_false] at hn
    obtain ⟨p, hp, hname⟩ := hn
    rw [← (h.digits p hp hname).2.2.1, (h'.digits p hp hname).2.2.1]

/-- A request is taken only with the length that every recipient takes it with. -/
def FramedSafely (buf : Bytes) : Prop :=
  ∀ r n, parseBytes buf = .ok (.complete r n) →
    ∃ head headEnd len, headText buf = some (head, headEnd) ∧ Unambiguous head len ∧
      n = headEnd + len

/-- A head that is otherwise fit for a whole request frames it unambiguously, and its
`Content-Length` fields do not stand after a blank-looking line only, unless the length is zero. -/
def FramingFit (buf : Bytes) : Prop :=
  ∀ head headEnd, headText buf = some (head, headEnd) →
    WellFormed (requestLineOf head) (fieldsOf head) →
    BodyArrived (fieldsOf head) (buf.drop headEnd) →
    ∃ len, Unambiguous head len ∧
      (len = 0 ∨ (fieldsOf head).any (isField contentLengthName) = true)

def chunkedRequest : Bytes :=
  encodeUtf8 "POST / HTTP/1.1\r\nTransfer-Encoding: chunked\r\n\r\n0\r\n\r\n".toList

end Kernway
