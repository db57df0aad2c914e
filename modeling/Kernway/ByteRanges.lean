import Kernway.Decimal
import Kernway.HttpFraming
import Kernway.StaticOutcome

namespace Kernway

deriving instance DecidableEq for RangeSpec

/-- One range of bytes, as a request may ask for it. -/
inductive ByteRange
  | between (first last : Nat)
  | onward (first : Nat)
  | suffix (length : Nat)

namespace ByteRange

/-- The range that the value of `Range` asks for by the grammar: its unit in either case, digits
only, and the bounds in order. -/
def read (value : Text) : Option ByteRange :=
  if eqIgnoreAsciiCase (value.take 6) "bytes=".toList then
    match cutAt '-' (value.drop 6) with
    | none => none
    | some (first, last) =>
      if ¬ (first.all isAsciiDigit ∧ last.all isAsciiDigit) then none
      else if first = [] then
        if last = [] then none else some (.suffix (digitsValue last))
      else if last = [] then some (.onward (digitsValue first))
      else if digitsValue first ≤ digitsValue last then
        some (.between (digitsValue first) (digitsValue last))
      else none
  else none

def bounds : ByteRange → List Nat
  | between first last => [first, last]
  | onward first => [first]
  | suffix length => [length]

/-- The part of a file that a range selects, where that is a part of it at all. -/
def select (len : Nat) : ByteRange → RangeSpec
  | between first last =>
    if first < len then .satisfiable first (min (last + 1) len) else .unsatisfiable
  | onward first => if first < len then .satisfiable first len else .unsatisfiable
  | suffix length =>
    if 0 < length ∧ 0 < len then .satisfiable (len - length) len else .unsatisfiable

/-- What a value asks of a file. A value that is no range is ignored. -/
def wanted (value : Text) (len : Nat) : RangeSpec :=
  match read value with
  | some range => range.select len
  | none => .full

/-- The two sides of the `-` are numbers to `parse_range`, or one of them is. -/
def Numbers (a b : Text) : Prop :=
  (a = [] ∧ (parseUsize b).isSome) ∨
    (a ≠ [] ∧ (parseUsize a).isSome ∧ (b = [] ∨ (parseUsize b).isSome))

/-- `parse_range` takes a value for a range: white space and a sign before a number pass, and the
bounds stand in any order. -/
def Taken (value : Text) : Prop :=
  ∃ spec a b, "bytes=".toList.isPrefixOf? (trim value) = some spec ∧ ',' ∉ trim spec ∧
    cutAt '-' (trim spec) = some (a, b) ∧ Numbers a b

theorem rangeBounds_isSome (a b : Text) (len : Nat) :
    (rangeBounds a b len).isSome ↔ Numbers a b := by
  unfold rangeBounds Numbers
  split
  next ha =>
    cases parseUsize b with
    | none => simp [ha]
    | some n =>
      dsimp only
      split
      next => simp [ha]
      next => split <;> simp [ha]
  next ha =>
    cases parseUsize a with
    | none => simp [ha]
    | some start =>
      dsimp only
      split
      next hb => simp [ha, hb]
      next hb =>
        cases parseUsize b with
        | none => simp [ha, hb]
        | some stop => simp [ha]

theorem parseRange_full_iff (value : Text) (len : Nat) :
    parseRange value len = .full ↔ ¬ Taken value := by
  unfold parseRange Taken
  cases hprefix : "bytes=".toList.isPrefixOf? (trim value) with
  | none => simp
  | some spec =>
    dsimp only
    split
    next hcomma => simp [hcomma]
    next hcomma =>
      cases hcut : cutAt '-' (trim spec) with
      | none => simp [hcut]
      | some p =>
        obtain ⟨a, b⟩ := p
        have hbounds := rangeBounds_isSome a b len
        dsimp only
        cases hsome : rangeBounds a b len with
        | none =>
          rw [hsome] at hbounds
          have hnot : ¬ Numbers a b := by simpa using hbounds
          simp [hcut, hnot]
        | some found =>
          rw [hsome] at hbounds
          have hnumbers : Numbers a b := by simpa using hbounds
          cases found with
          | none => simp [hcut, hnumbers, hcomma]
          | some p =>
            obtain ⟨start, last⟩ := p
            dsimp only
            split <;> simp [hcut, hnumbers, hcomma]

theorem parseUsize_digits {s : Text} (hne : s ≠ []) (hall : s.all isAsciiDigit = true) :
    parseUsize s = if digitsValue s < 2 ^ 64 then some (digitsValue s) else none := by
  have hplus : ∀ rest, s ≠ '+' :: rest := by
    rintro rest rfl
    rw [List.all_cons, Bool.and_eq_true] at hall
    exact absurd hall.1 (by decide)
  unfold parseUsize
  dsimp only
  split
  next rest => exact absurd rfl (hplus rest)
  next => simp [hne, hall]

/-- A value that asks for a range is its unit, and digits on both sides of a `-`. -/
structure Plain (value first last : Text) : Prop where
  value_eq : value = value.take 6 ++ (first ++ '-' :: last)
  unit : eqIgnoreAsciiCase (value.take 6) "bytes=".toList = true
  first : first.all isAsciiDigit = true
  last : last.all isAsciiDigit = true

theorem plain_of_read {value : Text} {range : ByteRange} (h : read value = some range) :
    ∃ first last, Plain value first last ∧ ((first = [] ∧ last ≠ [] ∧
        range = .suffix (digitsValue last)) ∨
      (first ≠ [] ∧ last = [] ∧ range = .onward (digitsValue first)) ∨
      (first ≠ [] ∧ last ≠ [] ∧ digitsValue first ≤ digitsValue last ∧
        range = .between (digitsValue first) (digitsValue last))) := by
  unfold read at h
  split at h
  next hunit =>
    cases hcut : cutAt '-' (value.drop 6) with
    | none => simp [hcut] at h
    | some p =>
      obtain ⟨first, last⟩ := p
      rw [hcut] at h
      dsimp only at h
      split at h
      next => cases h
      next hdigits =>
        have hall := not_not.mp hdigits
        have hvalue := List.take_append_drop 6 value
        rw [(cutAt_eq_some_iff.mp hcut).1] at hvalue
        refine ⟨first, last, ⟨hvalue.symm, hunit, hall.1, hall.2⟩, ?_⟩
        split at h
        next hfirst =>
          split at h
          next => cases h
          next hlast => exact .inl ⟨hfirst, hlast, (Option.some.inj h).symm⟩
        next hfirst =>
          split at h
          next hlast => exact .inr (.inl ⟨hfirst, hlast, (Option.some.inj h).symm⟩)
          next hlast =>
            split at h
            next hle => exact .inr (.inr ⟨hfirst, hlast, hle, (Option.some.inj h).symm⟩)
            next => cases h
  next => cases h

theorem toLower_of_blank {c : Char} (h : isWhitespace c = true) : c.toLower = c := by
  have hnot : ¬ ('A'.val ≤ c.val ∧ c.val ≤ 'Z'.val) := by
    rintro ⟨hlow, hhigh⟩
    rw [UInt32.le_iff_toNat_le] at hlow hhigh
    have hlow : 65 ≤ c.toNat := hlow
    have hhigh : c.toNat ≤ 90 := hhigh
    simp only [isWhitespace, Bool.or_eq_true, Bool.and_eq_true, decide_eq_true_eq, beq_iff_eq] at h
    omega
  exact dif_neg hnot

namespace Plain

variable {value first last : Text}

theorem right_blank (h : Plain value first last) :
    ∀ c ∈ first ++ '-' :: last, isWhitespace c = false := by
  intro c hc
  rcases List.mem_append.mp hc with hc | hc
  · exact isAsciiDigit_not_whitespace (List.all_eq_true.mp h.first c hc)
  · rcases List.mem_cons.mp hc with rfl | hc
    · decide
    · exact isAsciiDigit_not_whitespace (List.all_eq_true.mp h.last c hc)

theorem unit_blank (h : Plain value first last) :
    ∀ c ∈ value.take 6, isWhitespace c = false := by
  intro c hc
  have hunit : toAsciiLowercase (value.take 6) = "bytes=".toList := by
    have hlower : toAsciiLowercase "bytes=".toList = "bytes=".toList := by decide
    rw [← hlower]
    exact beq_iff_eq.mp h.unit
  have hmem : c.toLower ∈ "bytes=".toList := by
    rw [← hunit]
    exact List.mem_map_of_mem hc
  have hletters : ∀ c ∈ "bytes=".toList, isWhitespace c = false := by
    intro c hc
    have hcases : c = 'b' ∨ c = 'y' ∨ c = 't' ∨ c = 'e' ∨ c = 's' ∨ c = '=' := by simpa using hc
    rcases hcases with rfl | rfl | rfl | rfl | rfl | rfl <;> rfl
  by_contra hblank
  rw [Bool.not_eq_false] at hblank
  rw [toLower_of_blank hblank] at hmem
  rw [hletters c hmem] at hblank
  cases hblank

theorem trim_right (h : Plain value first last) :
    trim (first ++ '-' :: last) = first ++ '-' :: last := by
  apply trim_eq_self
  · exact fun c hc => h.right_blank c (List.mem_of_mem_head? hc)
  · exact fun c hc => h.right_blank c (List.mem_of_getLast? hc)

theorem trim_value (h : Plain value first last) : trim value = value := by
  have hblank : ∀ c ∈ value, isWhitespace c = false := by
    intro c hc
    rw [h.value_eq] at hc
    rcases List.mem_append.mp hc with hc | hc
    · exact h.unit_blank c hc
    · exact h.right_blank c hc
  apply trim_eq_self
  · exact fun c hc => hblank c (List.mem_of_mem_head? hc)
  · exact fun c hc => hblank c (List.mem_of_getLast? hc)

theorem cut (h : Plain value first last) :
    cutAt '-' (first ++ '-' :: last) = some (first, last) := by
  refine cutAt_eq_some_iff.mpr ⟨rfl, fun hmem => ?_⟩
  exact absurd (List.all_eq_true.mp h.first '-' hmem) (by decide)

theorem comma (h : Plain value first last) : ',' ∉ first ++ '-' :: last := by
  intro hmem
  rcases List.mem_append.mp hmem with hmem | hmem
  · exact absurd (List.all_eq_true.mp h.first ',' hmem) (by decide)
  · rcases List.mem_cons.mp hmem with heq | hmem
    · exact absurd heq (by decide)
    · exact absurd (List.all_eq_true.mp h.last ',' hmem) (by decide)

/-- `parse_range` takes the value if its unit is in lower case and its numbers are. -/
theorem taken_iff (h : Plain value first last) :
    Taken value ↔ value.take 6 = "bytes=".toList ∧ Numbers first last := by
  unfold Taken
  rw [h.trim_value]
  constructor
  · rintro ⟨spec, a, b, hprefix, -, hcut, hnumbers⟩
    have hvalue := isPrefixOf?_eq_some hprefix
    have hunit : value.take 6 = "bytes=".toList := by
      rw [hvalue]
      rfl
    have hspec : spec = first ++ '-' :: last := by
      have heq := h.value_eq
      rw [hunit] at heq
      exact List.append_cancel_left (hvalue.symm.trans heq)
    rw [hspec, h.trim_right, h.cut] at hcut
    cases hcut
    exact ⟨hunit, hnumbers⟩
  · rintro ⟨hunit, hnumbers⟩
    have hvalue := h.value_eq
    rw [hunit] at hvalue
    have hprefix := isPrefixOf?_append "bytes=".toList (first ++ '-' :: last)
    rw [← hvalue] at hprefix
    refine ⟨_, first, last, hprefix, ?_, ?_, hnumbers⟩
    · rw [h.trim_right]
      exact h.comma
    · rw [h.trim_right, h.cut]

end Plain

/-- A value on which `parse_range` follows the grammar: a range has its unit in lower case and its
numbers below 2^64, and what is no range is not taken for one. -/
structure Regular (value : Text) : Prop where
  range : ∀ range, read value = some range →
    value.take 6 = "bytes=".toList ∧ ∀ n ∈ range.bounds, n < 2 ^ 64
  other : read value = none → ¬ Taken value

theorem taken_iff_of_read {value : Text} {range : ByteRange} (h : read value = some range) :
    Taken value ↔ value.take 6 = "bytes=".toList ∧ ∀ n ∈ range.bounds, n < 2 ^ 64 := by
  obtain ⟨first, last, hplain, hcases⟩ := plain_of_read h
  have hsome : ∀ {s : Text}, s ≠ [] → s.all isAsciiDigit = true →
      ((parseUsize s).isSome ↔ digitsValue s < 2 ^ 64) := by
    intro s hne hall
    rw [parseUsize_digits hne hall]
    split
    next hlt => exact iff_of_true rfl hlt
    next hge => exact iff_of_false (by simp) hge
  rw [hplain.taken_iff]
  refine and_congr_right fun _ => ?_
  unfold Numbers bounds
  rcases hcases with ⟨hfirst, hlast, rfl⟩ | ⟨hfirst, hlast, rfl⟩ | ⟨hfirst, hlast, -, rfl⟩
  · rw [hsome hlast hplain.last]
    simp [hfirst]
  · rw [hsome hfirst hplain.first]
    simp [hfirst, hlast]
  · rw [hsome hfirst hplain.first, hsome hlast hplain.last]
    simp [hfirst, hlast]

/-- What `parse_range` makes of the bounds that it has read. -/
def answerTo (len : Nat) : Option (Option (Nat × Nat)) → RangeSpec
  | none => .full
  | some none => .unsatisfiable
  | some (some (start, last)) =>
    if len = 0 ∨ start ≥ len ∨ start > last then .unsatisfiable
    else .satisfiable start (last + 1)

theorem Plain.parseRange_eq {value first last : Text} (h : Plain value first last)
    (hunit : value.take 6 = "bytes=".toList) (len : Nat) :
    parseRange value len = answerTo len (rangeBounds first last len) := by
  have hvalue := h.value_eq
  rw [hunit] at hvalue
  have hprefix := isPrefixOf?_append "bytes=".toList (first ++ '-' :: last)
  rw [← hvalue] at hprefix
  unfold parseRange
  rw [h.trim_value, hprefix]
  dsimp only
  rw [h.trim_right, if_neg h.comma, h.cut]
  rfl

/-- A range that `parse_range` takes is answered by the bytes that it selects. -/
theorem parseRange_of_read {value : Text} {range : ByteRange} (h : read value = some range)
    (htaken : Taken value) (len : Nat) : parseRange value len = range.select len := by
  obtain ⟨hunit, hbounds⟩ := (taken_iff_of_read h).mp htaken
  obtain ⟨first, last, hplain, hcases⟩ := plain_of_read h
  have hparse : ∀ {s : Text}, s ≠ [] → s.all isAsciiDigit = true → digitsValue s < 2 ^ 64 →
      parseUsize s = some (digitsValue s) := by
    intro s hne hall hlt
    rw [parseUsize_digits hne hall, if_pos hlt]
  rw [hplain.parseRange_eq hunit]
  unfold rangeBounds answerTo
  rcases hcases with ⟨hfirst, hlast, rfl⟩ | ⟨hfirst, hlast, rfl⟩ | ⟨hfirst, hlast, hle, rfl⟩
  · have hlt : digitsValue last < 2 ^ 64 := hbounds _ (by simp [bounds])
    rw [if_pos hfirst, hparse hlast hplain.last hlt]
    unfold select
    dsimp only
    by_cases hzero : digitsValue last = 0
    · rw [if_pos hzero, if_neg (by omega)]
    · rw [if_neg hzero]
      by_cases hge : digitsValue last ≥ len
      · rw [if_pos hge]
        dsimp only
        by_cases hlen : len = 0
        · rw [if_pos (.inl hlen), if_neg (by omega)]
        · have hfew : len - digitsValue last = 0 := by omega
          have hall : len - 1 + 1 = len := by omega
          rw [if_neg (by omega), if_pos (by omega), hfew, hall]
      · rw [if_neg hge]
        dsimp only
        have hall : len - 1 + 1 = len := by omega
        rw [if_neg (by omega), if_pos (by omega), hall]
  · have hlt : digitsValue first < 2 ^ 64 := hbounds _ (by simp [bounds])
    rw [if_neg hfirst, hparse hfirst hplain.first hlt]
    unfold select
    dsimp only
    rw [if_pos hlast]
    dsimp only
    by_cases hin : digitsValue first < len
    · have hall : len - 1 + 1 = len := by omega
      rw [if_neg (by omega), if_pos hin, hall]
    · rw [if_pos (by omega), if_neg hin]
  · have hlt : digitsValue first < 2 ^ 64 := hbounds _ (by simp [bounds])
    have hlt' : digitsValue last < 2 ^ 64 := hbounds _ (by simp [bounds])
    rw [if_neg hfirst, hparse hfirst hplain.first hlt]
    unfold select
    dsimp only
    rw [if_neg hlast, hparse hlast hplain.last hlt']
    dsimp only
    by_cases hin : digitsValue first < len
    · have hclip : min (digitsValue last) (len - 1) + 1 = min (digitsValue last + 1) len := by omega
      rw [if_neg (by omega), if_pos hin, hclip]
    · rw [if_pos (by omega), if_neg hin]

theorem select_ne_full (range : ByteRange) (len : Nat) : range.select len ≠ .full := by
  cases range with
  | between first last =>
    rw [select]
    split <;> simp
  | onward first =>
    rw [select]
    split <;> simp
  | suffix length =>
    rw [select]
    split <;> simp

theorem rangeBounds_last {a b : Text} {len start last : Nat}
    (h : rangeBounds a b len = some (some (start, last))) : last ≤ len - 1 := by
  unfold rangeBounds at h
  split at h
  next =>
    split at h
    next => cases h
    next n hn =>
      split at h
      next => cases h
      next =>
        split at h
        next =>
          cases h
          exact Nat.le_refl _
        next =>
          cases h
          exact Nat.le_refl _
  next =>
    split at h
    next => cases h
    next =>
      split at h
      next =>
        cases h
        exact Nat.le_refl _
      next =>
        split at h
        next => cases h
        next =>
          cases h
          exact Nat.min_le_right ..

/-- The interval that is found stands in the file, so no difference of its places is negative and
none of them is past 64 bits. -/
theorem parseRange_bounds {value : Text} {len start stop : Nat}
    (h : parseRange value len = .satisfiable start stop) : start < stop ∧ stop ≤ len := by
  unfold parseRange at h
  split at h
  next => cases h
  next spec hprefix =>
    dsimp only at h
    split at h
    next => cases h
    next =>
      split at h
      next => cases h
      next a b hcut =>
        split at h
        next => cases h
        next => cases h
        next start' last hbounds =>
          have hlast := rangeBounds_last hbounds
          split at h
          next => cases h
          next hin =>
            cases h
            omega

end ByteRange

/-- An open file: its bytes, and how many of the bytes asked for a read at a place gives. -/
structure FileReads where
  content : Bytes
  count : Nat → Nat → Nat
  count_le : ∀ pos room, count pos room ≤ min room (content.length - pos)
  /-- Only the end of the file gives nothing. -/
  count_pos : ∀ pos room, pos < content.length → 0 < room → 0 < count pos room

namespace FileReads

variable (file : FileReads)

/-- The inner loop of `stream_file`: reads until the buffer is full or the file ends. -/
def readChunk (pos room : Nat) : Bytes :=
  if _h : file.count pos room = 0 then []
  else (file.content.drop pos).take (file.count pos room) ++
    readChunk (pos + file.count pos room) (room - file.count pos room)
termination_by room
decreasing_by
  have hle := file.count_le pos room
  omega

/-- The outer loop, a chunk at a time. -/
def streamFrom (chunk pos remaining : Nat) : Bytes :=
  if _h : remaining = 0 then []
  else
    let bytes := file.readChunk pos (min remaining chunk)
    if _hb : bytes = [] then []
    else bytes ++ streamFrom chunk (pos + bytes.length) (remaining - bytes.length)
termination_by remaining
decreasing_by exact Nat.sub_lt (Nat.pos_of_ne_zero _h) (List.length_pos_iff.mpr _hb)

def streamFile (range : Option (UInt64 × UInt64)) (len : UInt64) (chunk : Nat) : Bytes :=
  match range with
  | some (start, stop) => file.streamFrom chunk start.toNat (stop - start).toNat
  | none => file.streamFrom chunk 0 len.toNat

theorem readChunk_eq (pos room : Nat) :
    file.readChunk pos room = (file.content.drop pos).take room := by
  induction room using Nat.strongRecOn generalizing pos with
  | _ room ih =>
    have hle := file.count_le pos room
    unfold readChunk
    split
    next hzero =>
      have hend : room = 0 ∨ file.content.length ≤ pos := by
        by_contra hmore
        have hpos := file.count_pos pos room (by omega) (by omega)
        omega
      rcases hend with hroom | hpast
      · rw [hroom, List.take_zero]
      · rw [List.drop_eq_nil_of_le hpast, List.take_nil]
    next hsome =>
      have hrest := ih (room - file.count pos room) (by omega) (pos + file.count pos room)
      have hroom : room = file.count pos room + (room - file.count pos room) := by omega
      rw [hrest, ← List.drop_drop]
      conv_rhs => rw [hroom]
      exact List.take_add.symm

theorem streamFrom_eq {chunk : Nat} (hchunk : 0 < chunk) (pos remaining : Nat) :
    file.streamFrom chunk pos remaining = (file.content.drop pos).take remaining := by
  induction remaining using Nat.strongRecOn generalizing pos with
  | _ remaining ih =>
    unfold streamFrom
    rw [readChunk_eq]
    split
    next hzero => rw [hzero, List.take_zero]
    next hmore =>
      dsimp only
      split
      next hnil =>
        have hdrop : file.content.drop pos = [] := by
          by_contra hne
          have hlength := congrArg List.length hnil
          have hpos := List.length_pos_iff.mpr hne
          rw [List.length_take, List.length_nil] at hlength
          omega
        rw [hdrop, List.take_nil]
      next hne =>
        have hprefix := List.prefix_iff_eq_take.mp
          (List.take_prefix (min remaining chunk) (file.content.drop pos))
        have hpos := List.length_pos_iff.mpr hne
        have hle := List.length_take_le (min remaining chunk) (file.content.drop pos)
        generalize (file.content.drop pos).take (min remaining chunk) = bytes at hprefix hpos hle
        have hsum : remaining = bytes.length + (remaining - bytes.length) := by omega
        rw [ih _ (by omega), ← List.drop_drop]
        conv_rhs => rw [hsum, List.take_add, ← hprefix]

end FileReads

namespace ByteRange

/-- The answer to a request for a file, made of the one that sends the whole file. -/
def answer (response : Response) (path : Bytes) (len : UInt64) : RangeSpec → Option Response
  | .full => some response
  | .satisfiable start stop =>
    let range := "bytes ".toList ++ Nat.toDigits 10 start ++ '-' :: Nat.toDigits 10 (stop - 1) ++
      '/' :: decimal len
    (({ response with status := 206 } : Response).withHeader "content-range".toList range).map fun r =>
      { r with body := .file path len (some (UInt64.ofNat start, UInt64.ofNat stop)) }
  | .unsatisfiable =>
    (({ response with status := 416 } : Response).withHeader "content-range".toList
      ("bytes */".toList ++ decimal len)).map fun r => { r with body := .empty }

/-- The bytes that it sends of the file. -/
def part (content : Bytes) : RangeSpec → Bytes
  | .full => content
  | .satisfiable start stop => (content.drop start).take (stop - start)
  | .unsatisfiable => []

/-- What `write_response` streams behind the head. -/
def sent (file : FileReads) (chunk : Nat) (response : Response) : Bytes :=
  match response.body with
  | .file _ len range => file.streamFile range len chunk
  | _ => []

/-- The value is answered as the grammar reads it: in the head, in the bytes of the file, and with no
place outside of the file. -/
structure Follows (value : Text) (len : UInt64) : Prop where
  response : ∀ (response : Response) (path : Bytes), response.status = 200 →
    response.body = .file path len none →
      applyRange response value len = answer response path len (wanted value len.toNat)
  bytes : ∀ (response : Response) (path : Bytes), response.status = 200 →
    response.body = .file path len none → ∀ answered, applyRange response value len = some answered →
      ∀ file : FileReads, file.content.length = len.toNat → ∀ chunk, 0 < chunk →
        sent file chunk answered = part file.content (wanted value len.toNat)
  bounds : ∀ start stop, parseRange value len.toNat = .satisfiable start stop →
    start < stop ∧ stop ≤ len.toNat

section

variable {response answered : Response} {path : Bytes} {value : Text} {len : UInt64}

theorem withHeader_body {name value : Text} (h : response.withHeader name value = some answered) :
    answered.body = response.body := by
  obtain ⟨headers, -, rfl⟩ := Option.map_eq_some_iff.mp h
  rfl

theorem applyRange_eq (hbody : response.body = .file path len none) :
    applyRange response value len = answer response path len (parseRange value len.toNat) := by
  unfold applyRange
  cases parseRange value len.toNat with
  | full => rfl
  | satisfiable start stop =>
    rw [answer]
    dsimp only
    cases hr : ({ response with status := 206 } : Response).withHeader "content-range".toList
        ("bytes ".toList ++ Nat.toDigits 10 start ++ '-' :: Nat.toDigits 10 (stop - 1) ++
          '/' :: decimal len) with
    | none => rfl
    | some r =>
      have hr := (withHeader_body hr).trans hbody
      simp only [Option.bind_eq_bind, Option.bind_some, hr]
      rfl
  | unsatisfiable =>
    rw [answer]
    dsimp only
    cases ({ response with status := 416 } : Response).withHeader "content-range".toList
        ("bytes */".toList ++ decimal len) with
    | none => rfl
    | some r => rfl

theorem full_of_answer {spec : RangeSpec} (hstatus : response.status = 200)
    (h : answer response path len spec = some response) : spec = .full := by
  cases spec with
  | full => rfl
  | satisfiable start stop =>
    obtain ⟨r, hr, heq⟩ := Option.map_eq_some_iff.mp h
    have hsame : r.status = response.status := by rw [← heq]
    rw [hstatus, withHeader_status hr] at hsame
    cases hsame
  | unsatisfiable =>
    obtain ⟨r, hr, heq⟩ := Option.map_eq_some_iff.mp h
    have hsame : r.status = response.status := by rw [← heq]
    rw [hstatus, withHeader_status hr] at hsame
    cases hsame

/-- The interval of the head is the one that is streamed. -/
theorem sent_answer {spec : RangeSpec} (hbody : response.body = .file path len none)
    (hspec : ∀ start stop, spec = .satisfiable start stop → start < stop ∧ stop ≤ len.toNat)
    (h : answer response path len spec = some answered) (file : FileReads)
    (hlength : file.content.length = len.toNat) {chunk : Nat} (hchunk : 0 < chunk) :
    sent file chunk answered = part file.content spec := by
  cases spec with
  | full =>
    cases h
    unfold sent
    rw [hbody]
    unfold FileReads.streamFile
    dsimp only
    rw [file.streamFrom_eq hchunk, List.drop_zero, List.take_of_length_le (Nat.le_of_eq hlength)]
    rfl
  | satisfiable start stop =>
    obtain ⟨r, -, rfl⟩ := Option.map_eq_some_iff.mp h
    obtain ⟨hlt, hle⟩ := hspec start stop rfl
    have hlen := len.toNat_lt
    have hsize : UInt64.size = 2 ^ 64 := rfl
    have hstart : (UInt64.ofNat start).toNat = start := UInt64.toNat_ofNat_of_lt' (by omega)
    have hstop : (UInt64.ofNat stop).toNat = stop := UInt64.toNat_ofNat_of_lt' (by omega)
    have hwidth : (UInt64.ofNat stop - UInt64.ofNat start).toNat = stop - start := by
      rw [UInt64.toNat_sub_of_le _ _ (by rw [UInt64.le_iff_toNat_le, hstart, hstop]; omega), hstop,
        hstart]
    unfold sent FileReads.streamFile
    dsimp only
    rw [file.streamFrom_eq hchunk, hstart, hwidth]
    rfl
  | unsatisfiable =>
    obtain ⟨r, -, rfl⟩ := Option.map_eq_some_iff.mp h
    rfl

end

theorem parseRange_eq_wanted {value : Text} (h : Regular value) (len : Nat) :
    parseRange value len = wanted value len := by
  unfold wanted
  cases hread : read value with
  | none => exact (parseRange_full_iff value len).mpr (h.other hread)
  | some range =>
    exact parseRange_of_read hread ((taken_iff_of_read hread).mpr (h.range range hread)) len

/-- The answer follows the grammar where `parse_range` reads a value as the grammar does. -/
theorem follows_iff (value : Text) (len : UInt64) : Follows value len ↔ Regular value := by
  constructor
  · intro h
    let whole : Response := ⟨200, {}, .file [] len none⟩
    have hanswers := h.response whole [] rfl rfl
    rw [applyRange_eq rfl] at hanswers
    have hfull : parseRange value len.toNat = .full ↔ wanted value len.toNat = .full := by
      constructor
      · intro hparse
        rw [hparse] at hanswers
        exact full_of_answer rfl hanswers.symm
      · intro hwanted
        rw [hwanted] at hanswers
        exact full_of_answer rfl hanswers
    rw [parseRange_full_iff] at hfull
    unfold wanted at hfull
    constructor
    · intro range hread
      rw [hread] at hfull
      have htaken := not_not.mp fun hnot => select_ne_full range len.toNat (hfull.mp hnot)
      exact (taken_iff_of_read hread).mp htaken
    · intro hread
      rw [hread] at hfull
      exact hfull.mpr rfl
  · intro h
    have hwanted := parseRange_eq_wanted h len.toNat
    have hbounds : ∀ start stop, parseRange value len.toNat = .satisfiable start stop →
        start < stop ∧ stop ≤ len.toNat := fun _ _ hparse => parseRange_bounds hparse
    refine ⟨?_, ?_, hbounds⟩
    · intro response path hstatus hbody
      rw [applyRange_eq hbody, hwanted]
    · intro response path hstatus hbody answered hanswered file hlength chunk hchunk
      rw [applyRange_eq hbody] at hanswered
      rw [← hwanted]
      exact sent_answer hbody hbounds hanswered file hlength hchunk

/-- Of ten bytes, a range with its bounds in the wrong order is refused, one with a sign is served,
and one that ends past 2^64 is served whole. -/
theorem misread_ranges :
    ¬ Follows "bytes=5-2".toList 10 ∧
      parseRange "bytes=5-2".toList 10 = .unsatisfiable ∧ wanted "bytes=5-2".toList 10 = .full ∧
      parseRange "bytes=+1-2".toList 10 = .satisfiable 1 3 ∧
      wanted "bytes=+1-2".toList 10 = .full ∧
      parseRange "bytes=1-18446744073709551616".toList 10 = .full ∧
      wanted "bytes=1-18446744073709551616".toList 10 = .satisfiable 1 10 := by
  have hreversed : parseRange "bytes=5-2".toList 10 = .unsatisfiable := by decide +kernel
  have hwanted : wanted "bytes=5-2".toList 10 = .full := by decide +kernel
  refine ⟨fun h => ?_, hreversed, hwanted, by decide +kernel, by decide +kernel, by decide +kernel,
    by decide +kernel⟩
  have hanswers := h.response ⟨200, {}, .file [] 10 none⟩ [] rfl rfl
  have hlen : (10 : UInt64).toNat = 10 := rfl
  rw [applyRange_eq rfl, hlen, hreversed, hwanted] at hanswers
  have hfull := full_of_answer rfl hanswers
  cases hfull

end ByteRange

end Kernway
