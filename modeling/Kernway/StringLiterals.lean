import Kernway.HtmlTags

namespace Kernway

open Html (isHexDigit hexValue)

namespace Js

/-- The four line terminators. -/
def IsLineTerminator (c : Char) : Prop :=
  c = '\n' ∨ c = '\r' ∨ c = Char.ofNat 0x2028 ∨ c = Char.ofNat 0x2029

instance (c : Char) : Decidable (IsLineTerminator c) :=
  inferInstanceAs (Decidable (_ ∨ _ ∨ _ ∨ _))

/-- The code units of a character. -/
def units (c : Char) : List UInt16 :=
  if c.toNat < 0x10000 then [.ofNat c.toNat]
  else [.ofNat (0xD800 + (c.toNat - 0x10000) / 0x400), .ofNat (0xDC00 + (c.toNat - 0x10000) % 0x400)]

/-- The value of a string. -/
def utf16 (s : Text) : List UInt16 := s.flatMap units

/-- What a letter or a sign stands for behind a backslash. -/
def single (c : Char) : Option UInt16 :=
  if c = '\'' ∨ c = '"' ∨ c = '\\' then some (.ofNat c.toNat)
  else if c = 'b' then some 8
  else if c = 't' then some 9
  else if c = 'n' then some 10
  else if c = 'v' then some 11
  else if c = 'f' then some 12
  else if c = 'r' then some 13
  else none

/-- A code point in hexadecimal digits. -/
def hexUnits (digits : Text) : Option (List UInt16) :=
  if digits ≠ [] ∧ digits.all isHexDigit = true ∧ hexValue digits ≤ 0x10FFFF then
    if hexValue digits < 0x10000 then some [.ofNat (hexValue digits)]
    else some (units (.ofNat (hexValue digits)))
  else none

/-- An escape from behind its backslash: the code units it stands for, and what follows it. -/
def escape (s : Text) : Option (List UInt16 × Text) :=
  match s with
  | [] => none
  | c :: rest =>
    if c = '\r' ∧ rest.head? = some '\n' then some ([], rest.tail)
    else if IsLineTerminator c then some ([], rest)
    else if c = 'u' then
      if rest.head? = some '{' then
        if (rest.tail.dropWhile isHexDigit).head? = some '}' then
          (hexUnits (rest.tail.takeWhile isHexDigit)).map (·, (rest.tail.dropWhile isHexDigit).tail)
        else none
      else if (rest.take 4).length = 4 then (hexUnits (rest.take 4)).map (·, rest.drop 4)
      else none
    else if c = 'x' then
      if (rest.take 2).length = 2 then (hexUnits (rest.take 2)).map (·, rest.drop 2)
      else none
    else if c = '0' then
      if rest.head?.any isAsciiDigit = true then none else some ([0], rest)
    else if isAsciiDigit c = true then none
    else some (((single c).map fun unit => [unit]).getD (units c), rest)

theorem escape_length {s behind : Text} {value : List UInt16} (h : escape s = some (value, behind)) :
    behind.length ≤ s.length := by
  have hpair : ∀ (digits : Text) {t : Text}, (hexUnits digits).map (·, t) = some (value, behind) →
      t = behind := by
    intro digits t ht
    obtain ⟨u, -, heq⟩ := Option.map_eq_some_iff.mp ht
    exact (Prod.mk.inj heq).2
  cases s with
  | nil => cases h
  | cons c rest =>
    have hdrop := (List.dropWhile_suffix (l := rest.tail) isHexDigit).length_le
    rw [List.length_cons]
    unfold escape at h
    dsimp only at h
    split at h
    next =>
      rw [← (Prod.mk.inj (Option.some.inj h)).2, List.length_tail]
      omega
    split at h
    next =>
      rw [← (Prod.mk.inj (Option.some.inj h)).2]
      omega
    split at h
    next =>
      split at h
      next =>
        split at h
        next =>
          rw [List.length_tail] at hdrop
          rw [← hpair _ h, List.length_tail]
          omega
        next => cases h
      next =>
        split at h
        next =>
          rw [← hpair _ h, List.length_drop]
          omega
        next => cases h
    split at h
    next =>
      split at h
      next =>
        rw [← hpair _ h, List.length_drop]
        omega
      next => cases h
    split at h
    next =>
      split at h
      next => cases h
      next =>
        rw [← (Prod.mk.inj (Option.some.inj h)).2]
        omega
    split at h
    next => cases h
    next =>
      rw [← (Prod.mk.inj (Option.some.inj h)).2]
      omega

/-- The value of what stands between the quotes of a literal; neither quote stands there as it is,
nor does a line terminator. -/
@[semireducible] def literal (s : Text) : Option (List UInt16) :=
  match s with
  | [] => some []
  | c :: rest =>
    if c = '\\' then
      match _h : escape rest with
      | some (value, behind) => (literal behind).map (value ++ ·)
      | none => none
    else if c = '\'' ∨ c = '"' ∨ IsLineTerminator c then none
    else (literal rest).map (units c ++ ·)
termination_by s.length
decreasing_by
  · have hle := escape_length _h
    rw [List.length_cons]
    omega
  · rw [List.length_cons]
    omega

theorem literal_nil : literal [] = some [] := by
  unfold literal
  rfl

theorem literal_escape {rest behind : Text} {value : List UInt16}
    (h : escape rest = some (value, behind)) :
    literal ('\\' :: rest) = (literal behind).map (value ++ ·) := by
  conv_lhs => unfold literal
  rw [if_pos rfl]
  split
  next value' behind' h' =>
    obtain ⟨rfl, rfl⟩ := Prod.mk.inj (Option.some.inj (h'.symm.trans h))
    rfl
  next h' => cases h'.symm.trans h

theorem literal_plain {c : Char} (h : c ≠ '\\') (hplain : ¬ (c = '\'' ∨ c = '"' ∨ IsLineTerminator c))
    (rest : Text) : literal (c :: rest) = (literal rest).map (units c ++ ·) := by
  conv_lhs => unfold literal
  rw [if_neg h, if_neg hplain]

/-- A line terminator that stands as it is makes no literal. -/
theorem literal_terminator {c : Char} (h : IsLineTerminator c) (rest : Text) :
    literal (c :: rest) = none := by
  have hne : c ≠ '\\' := by
    rintro rfl
    revert h
    decide
  unfold literal
  rw [if_neg hne, if_pos (.inr (.inr h))]

end Js

namespace Css

def isNewline (c : Char) : Bool := c = '\n' || c = '\r' || c.toNat = 12

def isSpace (c : Char) : Bool := isNewline c || c = '\t' || c = ' '

/-- The replacement character stands for what is no character, and for the number 0. -/
def codePoint (n : Nat) : Char :=
  if n = 0 ∨ 0x10FFFF < n ∨ (0xD800 ≤ n ∧ n ≤ 0xDFFF) then '\uFFFD' else Char.ofNat n

/-- One newline: a carriage return and a line feed are one. -/
def skipNewline (s : Text) : Text :=
  if s.head? = some '\r' ∧ s.tail.head? = some '\n' then s.tail.tail else s.tail

/-- One blank behind the digits of an escape is of the escape. -/
def skipSpace (s : Text) : Text :=
  if s.head?.any isNewline = true then skipNewline s
  else if s.head?.any isSpace = true then s.tail
  else s

/-- An escape from behind its backslash: what it stands for, and what follows it. -/
def escape (s : Text) : Text × Text :=
  match s with
  | [] => ([], [])
  | c :: rest =>
    if isHexDigit c = true then
      let digits := ((c :: rest).takeWhile isHexDigit).take 6
      ([codePoint (hexValue digits)], skipSpace ((c :: rest).drop digits.length))
    else if isNewline c = true then ([], skipNewline s)
    else ([c], rest)

theorem skipNewline_length (s : Text) : (skipNewline s).length ≤ s.length := by
  unfold skipNewline
  split
  next => rw [List.length_tail, List.length_tail]; omega
  next => rw [List.length_tail]; omega

theorem skipSpace_length (s : Text) : (skipSpace s).length ≤ s.length := by
  unfold skipSpace
  split
  next => exact skipNewline_length s
  next =>
    split
    next => rw [List.length_tail]; omega
    next => exact le_rfl

theorem escape_length (s : Text) : (escape s).2.length ≤ s.length := by
  unfold escape
  split
  next => exact le_rfl
  next c rest =>
    split
    next =>
      have hle := skipSpace_length
        ((c :: rest).drop (((c :: rest).takeWhile isHexDigit).take 6).length)
      rw [List.length_drop] at hle
      dsimp only
      omega
    next =>
      split
      next => exact skipNewline_length _
      next => exact Nat.le_succ _

/-- What stands between the quotes of a string means; neither quote stands there as it is, nor does
a newline. -/
@[semireducible] def string (s : Text) : Option Text :=
  match s with
  | [] => some []
  | c :: rest =>
    if c = '\\' then (string (escape rest).2).map ((escape rest).1 ++ ·)
    else if c = '\'' ∨ c = '"' ∨ isNewline c = true then none
    else (string rest).map ((if c.toNat = 0 then '\uFFFD' else c) :: ·)
termination_by s.length
decreasing_by
  · have hle := escape_length rest
    rw [List.length_cons]
    omega
  · rw [List.length_cons]
    omega

theorem string_escape (rest : Text) :
    string ('\\' :: rest) = (string (escape rest).2).map ((escape rest).1 ++ ·) := by
  conv_lhs => unfold string
  rw [if_pos rfl]

theorem string_plain {c : Char} (h : c ≠ '\\') (hplain : ¬ (c = '\'' ∨ c = '"' ∨ isNewline c = true))
    (hzero : c.toNat ≠ 0) (rest : Text) : string (c :: rest) = (string rest).map ([c] ++ ·) := by
  conv_lhs => unfold string
  rw [if_neg h, if_neg hplain, if_neg hzero]
  rfl

/-- Up to six digits and a blank are one character, whatever follows. -/
theorem escape_digits {digits : Text} (hdigits : ∀ c ∈ digits, isHexDigit c = true)
    (hne : digits ≠ []) (hlen : digits.length ≤ 6) (rest : Text) :
    escape (digits ++ ' ' :: rest) = ([codePoint (hexValue digits)], rest) := by
  obtain ⟨c, tail, rfl⟩ := List.exists_cons_of_ne_nil hne
  have hall : (c :: tail ++ ' ' :: rest).takeWhile isHexDigit = c :: tail := by
    rw [List.takeWhile_append_of_pos hdigits]
    have hstop : isHexDigit ' ' = false := rfl
    rw [List.takeWhile_cons_of_neg (by rw [hstop]; exact Bool.false_ne_true), List.append_nil]
  have htake : (c :: tail).take 6 = c :: tail := List.take_of_length_le hlen
  rw [List.cons_append] at hall ⊢
  unfold escape
  dsimp only
  rw [if_pos (hdigits c List.mem_cons_self), hall, htake, ← List.cons_append, List.drop_left]
  rfl

end Css

end Kernway
