import Kernway.HttpPrefix
import Kernway.HttpReader
import Mathlib

namespace Kernway

theorem trim_append_whitespace (s : Text) {w : Char} (hw : isWhitespace w = true) :
    trim (s ++ [w]) = trim s := by
  unfold trim
  rw [List.dropWhile_append]
  split
  next h =>
    have hs : s.dropWhile isWhitespace = [] := List.isEmpty_iff.mp h
    simp [hs, hw]
  next => rw [List.rdropWhile_concat_pos _ _ _ hw]

theorem trim_stripSuffix (s : Text) : trim (stripSuffix '\r' s) = trim s := by
  unfold stripSuffix
  split
  next h =>
    obtain ⟨t, rfl⟩ := List.getLast?_eq_some_iff.mp h
    rw [List.dropLast_concat, trim_append_whitespace t (by decide)]
  next => rfl

theorem trim_head {s t : Text} {c : Char} (h : trim s = c :: t) : isWhitespace c = false := by
  have hp : trim s <+: s.dropWhile isWhitespace := List.rdropWhile_prefix _ _
  obtain ⟨u, hu⟩ := hp
  rw [h] at hu
  have := List.head?_dropWhile_not isWhitespace s
  simpa [← hu] using this

/-- A trimmed request line never has an empty method. -/
theorem requestLineParts_trim {s first : Text} {parts : List Text} (h2 : parts ≠ [])
    (h : requestLineParts (trim s) = first :: parts) : first ≠ [] := by
  rintro rfl
  unfold requestLineParts at h
  split at h
  next => exact h2 (List.cons.inj h).2.symm
  next a rest hc =>
    obtain ⟨heq, _⟩ := cutAt_eq_some_iff.mp hc
    rw [(List.cons.inj h).1, List.nil_append] at heq
    simpa [isWhitespace] using trim_head heq

def appendAll {ci : Bool} (f : Fields ci) (ps : List (Text × Text)) :
    Except ParseError (Fields ci) :=
  ps.foldlM (fun f p => appendField f p.1 p.2) f

@[simp] theorem appendAll_nil {ci : Bool} (f : Fields ci) : appendAll f [] = .ok f := rfl

theorem appendAll_cons {ci : Bool} (f : Fields ci) (p : Text × Text) (ps : List (Text × Text)) :
    appendAll f (p :: ps) = (appendField f p.1 p.2).bind fun g => appendAll g ps := rfl

def fieldBytes (ps : List (Text × Text)) : Nat :=
  (ps.map fun p => (encodeUtf8 p.1).length + (encodeUtf8 p.2).length).sum

theorem Fields.storedName_length (ci : Bool) (name : Bytes) :
    (storedName ci name).length = name.length := by
  cases ci <;> simp [storedName]

theorem appendField_eq_ok_iff {ci : Bool} {f g : Fields ci} {p : Text × Text} :
    appendField f p.1 p.2 = .ok g ↔ f.push p.1 p.2 = some g := by
  unfold appendField Fields.append
  cases f.push p.1 p.2 <;> simp

theorem Fields.push_length {ci : Bool} {f g : Fields ci} {p : Text × Text}
    (h : f.push p.1 p.2 = some g) :
    g.buf.length = f.buf.length + fieldBytes [p] ∧ g.buf.length < 2 ^ 32 := by
  simp only [Fields.push, Option.bind_eq_bind, Option.bind_eq_some_iff] at h
  obtain ⟨i, hi, j, hj, k, hk, hg⟩ := h
  cases Option.some.inj hg
  refine ⟨by simp [fieldBytes, storedName_length], ?_⟩
  unfold offset at hk
  split at hk
  next hlt => exact hlt
  next => simp at hk

theorem Fields.push_exists {ci : Bool} {f : Fields ci} {p : Text × Text}
    (h : f.buf.length + fieldBytes [p] < 2 ^ 32) : ∃ g, f.push p.1 p.2 = some g := by
  simp only [fieldBytes, List.map_cons, List.map_nil, List.sum_cons, List.sum_nil] at h
  simp only [Fields.push, offset, List.length_append, storedName_length, Option.bind_eq_bind]
  rw [if_pos (by omega), if_pos (by omega), if_pos (by omega)]
  exact ⟨_, rfl⟩

/-- Pairs can be appended exactly when the buffer they grow stays within 32-bit offsets. -/
theorem appendAll_isOk_iff {ci : Bool} {f : Fields ci} {ps : List (Text × Text)}
    (hf : f.buf.length < 2 ^ 32) :
    (∃ g, appendAll f ps = .ok g) ↔ f.buf.length + fieldBytes ps < 2 ^ 32 := by
  induction ps generalizing f with
  | nil => simpa [fieldBytes] using hf
  | cons p ps ih =>
    have hsum : fieldBytes (p :: ps) = fieldBytes [p] + fieldBytes ps := by simp [fieldBytes]
    rw [appendAll_cons]
    constructor
    · rintro ⟨g, hg⟩
      cases hp : appendField f p.1 p.2 with
      | error e => simp [hp, Except.bind] at hg
      | ok f' =>
        obtain ⟨hlen, hlt⟩ := Fields.push_length (appendField_eq_ok_iff.1 hp)
        have := (ih hlt).mp ⟨g, by simpa [hp, Except.bind] using hg⟩
        omega
    · intro h
      obtain ⟨f', hp⟩ := Fields.push_exists (f := f) (p := p) (by omega)
      obtain ⟨hlen, hlt⟩ := Fields.push_length hp
      obtain ⟨g, hg⟩ := (ih hlt).mpr (by omega)
      exact ⟨g, by rw [appendField_eq_ok_iff.2 hp]; exact hg⟩

theorem appendAll_holds {ci : Bool} {f g : Fields ci} {ps qs : List (Text × Text)}
    (hf : f.Holds qs) (h : appendAll f ps = .ok g) :
    g.Holds (qs ++ ps.map fun p => (storedText ci p.1, p.2)) := by
  induction ps generalizing f qs with
  | nil => simpa [Except.ok.inj h] using hf
  | cons p ps ih =>
    rw [appendAll_cons] at h
    cases hp : appendField f p.1 p.2 with
    | error e => simp [hp, Except.bind] at h
    | ok f' =>
      have hg := ih (Fields.push_holds hf (appendField_eq_ok_iff.1 hp))
        (by simpa [hp, Except.bind] using h)
      simpa using hg

/-- The value `headers.get("content-length")` has after appending `fields`, as a number. -/
def declaredLength (fields : List (Text × Text)) : Nat :=
  (((fields.reverse.find? fun p => eqIgnoreAsciiCase p.1 "content-length".toList).map
    Prod.snd).bind parseUsize).getD 0

theorem toAsciiLowercase_idem (s : Text) :
    toAsciiLowercase (toAsciiLowercase s) = toAsciiLowercase s := by
  simp [toAsciiLowercase]

theorem contentLength_eq {headers : Headers} {fields : List (Text × Text)}
    (h : appendAll {} fields = .ok headers) : contentLength headers = declaredLength fields := by
  have hh := appendAll_holds Fields.holds_nil h
  rw [contentLength, declaredLength, Fields.get_of_holds hh, List.nil_append, ← List.map_reverse,
    List.find?_map, Option.map_map]
  congr 3
  refine congrArg (List.find? · _) (funext fun p => ?_)
  simp only [Function.comp_apply, storedText, if_true, eqIgnoreAsciiCase, toAsciiLowercase_idem]

def headLines (ls : List Text) : List Text := (ls.map trim).takeWhile (· ≠ [])

theorem headLines_blank {line : Text} (h : trim line = []) (ls : List Text) :
    headLines (line :: ls) = [] := by
  simp [headLines, h]

theorem headLines_cons {line : Text} (h : trim line ≠ []) (ls : List Text) :
    headLines (line :: ls) = trim line :: headLines ls := by
  simp [headLines, h]

theorem parseHeaderLines_eq (ls : List Text) (headers : Headers) :
    parseHeaderLines ls headers = appendAll headers ((headLines ls).filterMap splitHeader) := by
  induction ls generalizing headers with
  | nil => rfl
  | cons line ls ih =>
    unfold parseHeaderLines
    split
    next h => rw [headLines_blank h]; rfl
    next h =>
      rw [headLines_cons h]
      split
      next name value hs =>
        rw [List.filterMap_cons_some hs, appendAll_cons]
        cases appendField headers name value with
        | error e => rfl
        | ok g => exact ih g
      next hs => rw [List.filterMap_cons_none hs, ih]

/-- The request that a trimmed request line and the fields under it spell, its body left empty;
`up` is how the method is upper-cased. -/
def DecodesTo (up : Text → Text) (line : Text) (fields : List (Text × Text)) (r : Request) : Prop :=
  ∃ first target parts query headers, requestLineParts line = first :: target :: parts ∧
    parseQueryString (splitTarget target).2 = .ok query ∧ appendAll {} fields = .ok headers ∧
    r = { method := up first, path := (splitTarget target).1, version := parseVersion parts.head?,
          headers, query, pathParams := [], body := [], bodySpool := none, remoteAddr := none }

/-- The request line has a target, and neither it nor the fields overflow their 32-bit offsets. -/
def WellFormed (line : Text) (fields : List (Text × Text)) : Prop :=
  ∃ first target parts, requestLineParts line = first :: target :: parts ∧
    fieldBytes (((splitTarget target).2.splitOn '&').filterMap queryPair) < 2 ^ 32 ∧
    fieldBytes fields < 2 ^ 32

theorem decodesTo_exists_iff {up : Text → Text} {line : Text} {fields : List (Text × Text)} :
    (∃ r, DecodesTo up line fields r) ↔ WellFormed line fields := by
  constructor
  · rintro ⟨r, first, target, parts, query, headers, hp, hq, hh, _⟩
    have hq' := (appendAll_isOk_iff (by simp)).mp ⟨query, hq⟩
    have hh' := (appendAll_isOk_iff (by simp)).mp ⟨headers, hh⟩
    exact ⟨first, target, parts, hp, by simpa using hq', by simpa using hh'⟩
  · rintro ⟨first, target, parts, hp, hq, hh⟩
    obtain ⟨query, hq⟩ := (appendAll_isOk_iff (f := ({} : QueryParams)) (by simp)).mpr
      (by simpa using hq)
    obtain ⟨headers, hh⟩ := (appendAll_isOk_iff (f := ({} : Headers)) (by simp)).mpr
      (by simpa using hh)
    exact ⟨_, first, target, parts, query, headers, hp, hq, hh, rfl⟩

/-- Two readings of one head differ in the method only. -/
theorem DecodesTo.method_eq {up up' : Text → Text} {line : Text} {fields : List (Text × Text)}
    {r r' : Request} (h : DecodesTo up line fields r) (h' : DecodesTo up' line fields r') :
    r.method = up ((requestLineParts line).headD []) ∧
      r' = { r with method := up' ((requestLineParts line).headD []) } := by
  obtain ⟨first, target, parts, query, headers, hp, hq, hh, rfl⟩ := h
  obtain ⟨first', target', parts', query', headers', hp', hq', hh', rfl⟩ := h'
  rw [hp, List.cons.injEq, List.cons.injEq] at hp'
  obtain ⟨rfl, rfl, rfl⟩ := hp'
  obtain rfl := Except.ok.inj (hq.symm.trans hq')
  obtain rfl := Except.ok.inj (hh.symm.trans hh')
  simp [hp]

theorem parseRequestLine_eq_ok_iff {s method path : Text} {query : QueryParams}
    {version : HttpVersion} :
    parseRequestLine (trim s) = .ok (method, path, query, version) ↔
      ∃ first target parts, requestLineParts (trim s) = first :: target :: parts ∧
        parseQueryString (splitTarget target).2 = .ok query ∧ method = toAsciiUppercase first ∧
        path = (splitTarget target).1 ∧ version = parseVersion parts.head? := by
  unfold parseRequestLine
  split
  next first target parts hp =>
    rw [if_neg (requestLineParts_trim (by simp) hp)]
    cases hq : parseQueryString (splitTarget target).2 with
    | error e => simp [hp, hq, bind, Except.bind]
    | ok q =>
      simp only [hp, bind, Except.bind, hq, pure, Except.pure, Except.ok.injEq, Prod.mk.injEq,
        List.cons.injEq]
      constructor
      · rintro ⟨rfl, rfl, rfl, rfl⟩
        exact ⟨first, target, parts, ⟨rfl, rfl, rfl⟩, hq, rfl, rfl, rfl⟩
      · rintro ⟨_, _, _, ⟨rfl, rfl, rfl⟩, h, rfl, rfl, rfl⟩
        exact ⟨rfl, rfl, Except.ok.inj (hq.symm.trans h), rfl⟩
  next hp =>
    simp only [reduceCtorEq, false_iff]
    rintro ⟨first, target, parts, h, _⟩
    exact hp first target parts h

def requestLineOf (head : Text) : Text := trim ((lines head).headD [])

/-- The fields that the header loop reads from a head. -/
def fieldsOf (head : Text) : List (Text × Text) :=
  (headLines (lines head).tail).filterMap splitHeader

theorem parseHeadText_eq_ok_iff {head : Text} {r : Request} {c : Nat} :
    parseHeadText head = .ok (r, c) ↔
      DecodesTo toAsciiUppercase (requestLineOf head) (fieldsOf head) r ∧
        c = declaredLength (fieldsOf head) := by
  simp only [parseHeadText, parseHeaderLines_eq, requestLineOf, fieldsOf]
  generalize (lines head).headD [] = first, (lines head).tail = rest
  constructor
  · intro h
    cases hl : parseRequestLine (trim first) with
    | error e => simp [hl, bind, Except.bind] at h
    | ok q =>
      obtain ⟨method, path, query, version⟩ := q
      cases hh : appendAll ({} : Headers) ((headLines rest).filterMap splitHeader) with
      | error e => simp [hl, hh, bind, Except.bind] at h
      | ok headers =>
        simp only [hl, hh, bind, Except.bind, pure, Except.pure, Except.ok.injEq,
          Prod.mk.injEq] at h
        obtain ⟨first, target, parts, hp, hq, rfl, rfl, rfl⟩ := parseRequestLine_eq_ok_iff.1 hl
        exact ⟨⟨first, target, parts, query, headers, hp, hq, hh, h.1.symm⟩,
          by rw [← h.2, contentLength_eq hh]⟩
  · rintro ⟨⟨first, target, parts, query, headers, hp, hq, hh, rfl⟩, rfl⟩
    have hl := parseRequestLine_eq_ok_iff.2 ⟨first, target, parts, hp, hq, rfl, rfl, rfl⟩
    simp only [hl, hh, bind, Except.bind, pure, Except.pure, contentLength_eq hh]

/-- The head's text and its length in bytes, where its end is found within the limit and it is
UTF-8. -/
def headText (buf : Bytes) : Option (Text × Nat) := do
  let (headEnd, _) ← findHeadEnd buf
  if headEnd > maxHeadBytes then none
  else (decodeUtf8 (buf.take headEnd)).map fun t => (t, headEnd)

/-- `parse_head_inner` refuses the head before reading a line of it: too long, or not UTF-8. -/
def HeadRefused (buf : Bytes) : Prop :=
  match findHeadEnd buf with
  | none => maxHeadBytes < buf.length
  | some (headEnd, _) => maxHeadBytes < headEnd ∨ decodeUtf8 (buf.take headEnd) = none

theorem headText_eq_some_iff {buf : Bytes} {t : Text} {e : Nat} :
    headText buf = some (t, e) ↔ ∃ k, findHeadEnd buf = some (e, k) ∧ e ≤ maxHeadBytes ∧
      decodeUtf8 (buf.take e) = some t := by
  unfold headText
  cases findHeadEnd buf with
  | none => simp
  | some p =>
    obtain ⟨i, k⟩ := p
    simp only [Option.bind_eq_bind, Option.bind_some, Option.some.injEq, Prod.mk.injEq]
    split
    next hi => simp only [reduceCtorEq, false_iff]; rintro ⟨k', ⟨rfl, rfl⟩, h, _⟩; omega
    next hi =>
      simp only [Option.map_eq_some_iff, Prod.mk.injEq]
      constructor
      · rintro ⟨s, hs, rfl, rfl⟩
        exact ⟨k, ⟨rfl, rfl⟩, by omega, hs⟩
      · rintro ⟨_, ⟨rfl, rfl⟩, _, h⟩
        exact ⟨t, h, rfl, rfl⟩

theorem parseHeadInner_of_headText {buf : Bytes} {t : Text} {e : Nat}
    (h : headText buf = some (t, e)) :
    parseHeadInner buf = (parseHeadText t).map fun p => some (p.1, e, p.2) := by
  obtain ⟨k, hf, he, ht⟩ := headText_eq_some_iff.1 h
  simp only [parseHeadInner, hf, if_neg (show ¬ e > maxHeadBytes by omega), ht]
  cases parseHeadText t <;> rfl

theorem parseHeadInner_of_refused {buf : Bytes} (h : HeadRefused buf) :
    ∃ e, parseHeadInner buf = .error e := by
  unfold HeadRefused at h
  unfold parseHeadInner
  split at h
  next hf => exact ⟨.tooLarge, by simp only [hf, if_pos h]⟩
  next e k hf =>
    simp only [hf]
    split
    next => exact ⟨.tooLarge, rfl⟩
    next he => exact ⟨notUtf8, by rw [h.resolve_left he]⟩

/-- A head neither refused nor there is still arriving. -/
theorem parseHeadInner_of_waiting {buf : Bytes} (hr : ¬ HeadRefused buf)
    (ht : headText buf = none) : parseHeadInner buf = .ok none := by
  unfold HeadRefused at hr
  cases hf : findHeadEnd buf with
  | none =>
    simp only [hf] at hr
    simp only [parseHeadInner, hf, if_neg hr]
  | some p =>
    obtain ⟨e, k⟩ := p
    simp only [hf, not_or] at hr
    obtain ⟨t, hd⟩ := Option.ne_none_iff_exists'.mp hr.2
    rw [headText_eq_some_iff.2 ⟨k, hf, by omega, hd⟩] at ht
    simp at ht

theorem parseHeadInner_eq_some_iff {buf : Bytes} {r : Request} {e c : Nat} :
    parseHeadInner buf = .ok (some (r, e, c)) ↔ ∃ t, headText buf = some (t, e) ∧
      DecodesTo toAsciiUppercase (requestLineOf t) (fieldsOf t) r ∧
        c = declaredLength (fieldsOf t) := by
  cases ht : headText buf with
  | none =>
    simp only [reduceCtorEq, false_and, exists_false, iff_false]
    intro h
    by_cases hr : HeadRefused buf
    · obtain ⟨e', he⟩ := parseHeadInner_of_refused hr
      simp [he] at h
    · simp [parseHeadInner_of_waiting hr ht] at h
  | some p =>
    obtain ⟨t, e'⟩ := p
    rw [parseHeadInner_of_headText ht]
    cases hp : parseHeadText t with
    | error err =>
      simp only [Except.map, reduceCtorEq, Option.some.injEq, Prod.mk.injEq, false_iff]
      rintro ⟨_, ⟨rfl, rfl⟩, h⟩
      simp [parseHeadText_eq_ok_iff.2 h] at hp
    | ok q =>
      obtain ⟨r', c'⟩ := q
      simp only [Except.map, Except.ok.injEq, Option.some.injEq, Prod.mk.injEq]
      constructor
      · rintro ⟨rfl, rfl, rfl⟩
        exact ⟨t, ⟨rfl, rfl⟩, parseHeadText_eq_ok_iff.1 hp⟩
      · rintro ⟨_, ⟨rfl, rfl⟩, h⟩
        rw [parseHeadText_eq_ok_iff.2 h] at hp
        simpa using Except.ok.inj hp.symm

/-- The fields declare a body within the limit that `rest` holds in full. -/
def BodyArrived (fields : List (Text × Text)) (rest : Bytes) : Prop :=
  declaredLength fields ≤ maxBodyBytes ∧ declaredLength fields ≤ rest.length

theorem parseBytes_eq_complete_iff {buf : Bytes} {req : Request} {n : Nat} :
    parseBytes buf = .ok (.complete req n) ↔ ∃ t e r, headText buf = some (t, e) ∧
      DecodesTo toAsciiUppercase (requestLineOf t) (fieldsOf t) r ∧
      BodyArrived (fieldsOf t) (buf.drop e) ∧ n = e + declaredLength (fieldsOf t) ∧
      req = { r with body := (buf.drop e).take (declaredLength (fieldsOf t)) } := by
  rw [parseBytes_complete_iff]
  constructor
  · rintro ⟨r, e, c, hh, hc, hl, hn, hr⟩
    obtain ⟨t, ht, hd, rfl⟩ := parseHeadInner_eq_some_iff.1 hh
    refine ⟨t, e, r, ht, hd, ⟨hc, ?_⟩, hn, ?_⟩
    · rw [List.length_drop]
      omega
    · rw [hr, List.take_drop, Nat.add_comm e]
  · rintro ⟨t, e, r, ht, hd, ⟨hc, hl⟩, hn, hr⟩
    rw [List.length_drop] at hl
    obtain ⟨k, hf, _⟩ := headText_eq_some_iff.1 ht
    have := (findHeadEnd_bounds hf).2
    refine ⟨r, e, _, parseHeadInner_eq_some_iff.2 ⟨t, ht, hd, rfl⟩, hc, by omega, hn, ?_⟩
    rw [hr, List.take_drop, Nat.add_comm e]

end Kernway
