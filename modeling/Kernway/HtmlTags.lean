import Kernway.Str

namespace Kernway.Html

def isSpace (c : Char) : Bool :=
  c = ' ' || c = '\t' || c = '\n' || c.toNat = 12 || c = '\r'

section References

/-- The table of the named character references: a semicolon only ends a name. -/
structure References where
  named : Text → Option Text
  amp : named "amp;".toList = some ['&']
  lt : named "lt;".toList = some ['<']
  gt : named "gt;".toList = some ['>']
  quot : named "quot;".toList = some ['"']
  semicolon_last : ∀ name value, named name = some value → ';' ∉ name.dropLast

/-- What a number from 128 to 159 stands for, as in the code page that was meant. -/
def codePage : List Nat :=
  [0x20AC, 0x81, 0x201A, 0x192, 0x201E, 0x2026, 0x2020, 0x2021, 0x2C6, 0x2030, 0x160, 0x2039, 0x152,
    0x8D, 0x17D, 0x8F, 0x90, 0x2018, 0x2019, 0x201C, 0x201D, 0x2022, 0x2013, 0x2014, 0x2DC, 0x2122,
    0x161, 0x203A, 0x153, 0x9D, 0x17E, 0x178]

def codePoint (n : Nat) : Char :=
  if n = 0 ∨ 0x10FFFF < n ∨ (0xD800 ≤ n ∧ n ≤ 0xDFFF) then '\uFFFD'
  else if 0x80 ≤ n ∧ n ≤ 0x9F then Char.ofNat ((codePage[n - 0x80]?).getD n)
  else Char.ofNat n

def isHexDigit (c : Char) : Bool :=
  isAsciiDigit c || ('a' ≤ c && c ≤ 'f') || ('A' ≤ c && c ≤ 'F')

def hexDigit (c : Char) : Nat :=
  if isAsciiDigit c then c.toNat - '0'.toNat
  else if 'a' ≤ c then c.toNat - 'a'.toNat + 10
  else c.toNat - 'A'.toNat + 10

def hexValue (s : Text) : Nat := s.foldl (fun n c => 16 * n + hexDigit c) 0

/-- A semicolon is of the reference in front of it. -/
def skipSemicolon (s : Text) : Text := if s.head? = some ';' then s.tail else s

/-- A numeric reference, from behind its `&#`. -/
def numericRef (s : Text) : Option (Char × Text) :=
  if s.head? = some 'x' ∨ s.head? = some 'X' then
    if s.tail.takeWhile isHexDigit = [] then none
    else some (codePoint (hexValue (s.tail.takeWhile isHexDigit)),
      skipSemicolon (s.tail.dropWhile isHexDigit))
  else if s.takeWhile isAsciiDigit = [] then none
  else some (codePoint (digitsValue (s.takeWhile isAsciiDigit)),
    skipSemicolon (s.dropWhile isAsciiDigit))

/-- The longest name of the table that begins with what was read: the name, what it stands for, and
what follows. -/
def longestNamed (named : Text → Option Text) (read : Text) : Text → Option (Text × Text × Text)
  | [] => none
  | c :: rest =>
    (longestNamed named (read ++ [c]) rest).or
      ((named (read ++ [c])).map fun value => (read ++ [c], value, rest))

/-- A character reference in an attribute, from behind its `&`: what it stands for, and what
follows. A name without a semicolon is none before `=` or a letter or digit. -/
def charRef (refs : References) (s : Text) : Text × Text :=
  if s.head? = some '#' then
    match numericRef s.tail with
    | some (c, rest) => ([c], rest)
    | none => (['&'], s)
  else
    match longestNamed refs.named [] s with
    | some (name, value, rest) =>
      if name.getLast? ≠ some ';' ∧ rest.head?.any (fun c => c = '=' || c.isAlphanum) = true then
        ('&' :: name, rest)
      else (value, rest)
    | none => (['&'], s)

theorem skipSemicolon_length (s : Text) : (skipSemicolon s).length ≤ s.length := by
  unfold skipSemicolon
  split
  next => rw [List.length_tail]; omega
  next => exact Nat.le_refl _

theorem numericRef_length {s rest : Text} {c : Char} (h : numericRef s = some (c, rest)) :
    rest.length ≤ s.length := by
  have hskip : ∀ (p : Char → Bool) (t : Text), (skipSemicolon (t.dropWhile p)).length ≤ t.length :=
    fun p t => (skipSemicolon_length _).trans (List.dropWhile_suffix p).length_le
  unfold numericRef at h
  split at h
  next =>
    split at h
    next => cases h
    next =>
      cases h
      have htail := hskip isHexDigit s.tail
      rw [List.length_tail] at htail
      omega
  next =>
    split at h
    next => cases h
    next =>
      cases h
      exact hskip isAsciiDigit s

theorem longestNamed_length {named : Text → Option Text} {read s name value rest : Text}
    (h : longestNamed named read s = some (name, value, rest)) : rest.length ≤ s.length := by
  induction s generalizing read with
  | nil => cases h
  | cons c s ih =>
    rw [longestNamed, Option.or_eq_some_iff] at h
    rcases h with h | ⟨-, h⟩
    · have hle := ih h
      rw [List.length_cons]
      omega
    · obtain ⟨v, -, heq⟩ := Option.map_eq_some_iff.mp h
      cases heq
      rw [List.length_cons]
      omega

theorem charRef_length (refs : References) (s : Text) : (charRef refs s).2.length ≤ s.length := by
  unfold charRef
  split
  next =>
    split
    next c rest h =>
      have hle := numericRef_length h
      rw [List.length_tail] at hle
      dsimp only
      omega
    next => exact Nat.le_refl _
  next =>
    split
    next name value rest h =>
      have hle := longestNamed_length h
      split
      next => exact hle
      next => exact hle
    next => exact Nat.le_refl _

/-- The value of an attribute, from the text it is written as. -/
@[semireducible] def decode (refs : References) : Text → Text
  | [] => []
  | c :: rest =>
    if c = '&' then (charRef refs rest).1 ++ decode refs (charRef refs rest).2
    else c :: decode refs rest
termination_by s => s.length
decreasing_by
  · have hle := charRef_length refs rest
    rw [List.length_cons]
    omega
  · rw [List.length_cons]
    omega

variable {refs : References}

theorem decode_cons {c : Char} (h : c ≠ '&') (s : Text) :
    decode refs (c :: s) = c :: decode refs s := by
  rw [decode, if_neg h]

theorem decode_amp (s : Text) :
    decode refs ('&' :: s) = (charRef refs s).1 ++ decode refs (charRef refs s).2 := by
  rw [decode, if_pos rfl]

/-- No name of the table goes on behind a semicolon. -/
theorem longestNamed_closed {read : Text} (h : ';' ∈ read) (s : Text) :
    longestNamed refs.named read s = none := by
  induction s generalizing read with
  | nil => rfl
  | cons c s ih =>
    have hnone : refs.named (read ++ [c]) = none := by
      cases hn : refs.named (read ++ [c]) with
      | none => rfl
      | some value =>
        have hlast := refs.semicolon_last _ _ hn
        rw [List.dropLast_concat] at hlast
        exact absurd h hlast
    rw [longestNamed, ih (List.mem_append_left _ h), hnone]
    rfl

theorem longestNamed_name {read name value : Text}
    (h : refs.named (read ++ name ++ [';']) = some value) (s : Text) :
    longestNamed refs.named read (name ++ ';' :: s) =
      some (read ++ name ++ [';'], value, s) := by
  induction name generalizing read with
  | nil =>
    rw [List.append_nil] at h
    rw [List.nil_append, longestNamed, longestNamed_closed (by simp), h, List.append_nil]
    rfl
  | cons c name ih =>
    have hsplit : read ++ c :: name ++ [';'] = read ++ [c] ++ name ++ [';'] := by simp
    rw [hsplit] at h
    rw [List.cons_append, longestNamed, ih h, Option.some_or, hsplit]

theorem charRef_name {name value : Text} (h : refs.named (name ++ [';']) = some value)
    (hname : (name ++ [';']).head? ≠ some '#') (s : Text) :
    charRef refs (name ++ ';' :: s) = (value, s) := by
  have hhead : ¬ (name ++ ';' :: s).head? = some '#' := by
    cases name with
    | nil => exact hname
    | cons c name => exact hname
  have hlast : ¬ ((name ++ [';']).getLast? ≠ some ';' ∧
      s.head?.any (fun c => c = '=' || c.isAlphanum) = true) := by
    rw [List.getLast?_concat]
    exact fun hn => hn.1 rfl
  have hfound : longestNamed refs.named [] (name ++ ';' :: s) =
      some ([] ++ name ++ [';'], value, s) := longestNamed_name h s
  rw [charRef, if_neg hhead, hfound]
  exact if_neg hlast

end References

section Tags

/-- An attribute as it is written: whether its value stands without quotes, the value not decoded. -/
structure Attr where
  name : Text
  value : Text
  unquoted : Bool
  deriving DecidableEq

def isNameChar (c : Char) : Bool := !(isSpace c || c = '/' || c = '>' || c = '=')

def isUnquotedChar (c : Char) : Bool := !(isSpace c || c = '>')

/-- The value of an attribute from its first character on, whether it stands without quotes, and what
follows. -/
def attrValue (s : Text) : Option (Text × Bool × Text) :=
  match s with
  | [] => none
  | q :: rest =>
    if q = '"' ∨ q = '\'' then (cutAt q rest).map fun cut => (cut.1, false, cut.2)
    else some (s.takeWhile isUnquotedChar, true, s.dropWhile isUnquotedChar)

/-- What the tokenizer meets within a start tag. -/
inductive Step
  | done (selfClosing : Bool) (rest : Text)
  | skip (rest : Text)
  | attr (a : Attr) (rest : Text)

/-- The states before an attribute name, of one, and behind it. -/
def nextStep (s : Text) : Option Step :=
  match s.dropWhile isSpace with
  | [] => none
  | c :: rest =>
    if c = '>' then some (.done false rest)
    else if c = '/' then
      if rest.head? = some '>' then some (.done true rest.tail) else some (.skip rest)
    else
      let name := c :: rest.takeWhile isNameChar
      let after := (rest.dropWhile isNameChar).dropWhile isSpace
      if after.head? = some '=' then
        (attrValue (after.tail.dropWhile isSpace)).map fun v => .attr ⟨name, v.1, v.2.1⟩ v.2.2
      else some (.attr ⟨name, [], false⟩ after)

def Step.rest : Step → Text
  | done _ rest => rest
  | skip rest => rest
  | attr _ rest => rest

theorem attrValue_length {s value rest : Text} {unquoted : Bool}
    (h : attrValue s = some (value, unquoted, rest)) : rest.length ≤ s.length := by
  unfold attrValue at h
  split at h
  next => cases h
  next q t =>
    split at h
    next =>
      obtain ⟨cut, hcut, heq⟩ := Option.map_eq_some_iff.mp h
      cases heq
      have hlen := cutAt_length hcut
      rw [List.length_cons]
      omega
    next =>
      cases h
      exact (List.dropWhile_suffix _).length_le

theorem nextStep_length {s : Text} {step : Step} (h : nextStep s = some step) :
    step.rest.length < s.length := by
  have hdrop : ∀ (p : Char → Bool) (t : Text), (t.dropWhile p).length ≤ t.length :=
    fun p t => (List.dropWhile_suffix p).length_le
  have hs := hdrop isSpace s
  unfold nextStep at h
  split at h
  next => cases h
  next c rest heq =>
    rw [heq, List.length_cons] at hs
    split at h
    next =>
      cases h
      exact hs
    next =>
      split at h
      next =>
        split at h
        next =>
          cases h
          change rest.tail.length < s.length
          rw [List.length_tail]
          omega
        next =>
          cases h
          exact hs
      next =>
        have hafter := (hdrop isSpace (rest.dropWhile isNameChar)).trans (hdrop isNameChar rest)
        dsimp only at h
        split at h
        next =>
          obtain ⟨⟨value, unquoted, rest'⟩, hvalue, hstep⟩ := Option.map_eq_some_iff.mp h
          cases hstep
          have hlen := attrValue_length hvalue
          have hvalueLen := hdrop isSpace
            ((rest.dropWhile isNameChar).dropWhile isSpace).tail
          rw [List.length_tail] at hvalueLen
          change rest'.length < s.length
          omega
        next =>
          cases h
          change ((rest.dropWhile isNameChar).dropWhile isSpace).length < s.length
          omega

/-- The attributes of a start tag from behind its name, whether it closes itself, and what follows
it; a text that ends within the tag has none. -/
@[semireducible] def readAttributes (attrs : List Attr) (s : Text) :
    Option (List Attr × Bool × Text) :=
  match _h : nextStep s with
  | none => none
  | some (.done selfClosing rest) => some (attrs, selfClosing, rest)
  | some (.skip rest) => readAttributes attrs rest
  | some (.attr a rest) => readAttributes (attrs ++ [a]) rest
termination_by s.length
decreasing_by
  · exact nextStep_length _h
  · exact nextStep_length _h

theorem readAttributes_eq (attrs : List Attr) (s : Text) :
    readAttributes attrs s = match nextStep s with
      | none => none
      | some (.done selfClosing rest) => some (attrs, selfClosing, rest)
      | some (.skip rest) => readAttributes attrs rest
      | some (.attr a rest) => readAttributes (attrs ++ [a]) rest := by
  rw [readAttributes]
  split <;> simp_all

theorem readAttributes_prefix {read attrs : List Attr} {s rest : Text} {selfClosing : Bool}
    (h : readAttributes read s = some (attrs, selfClosing, rest)) : read <+: attrs := by
  induction hl : s.length using Nat.strongRecOn generalizing s read with
  | _ n ih =>
    rw [readAttributes_eq] at h
    split at h
    next => cases h
    next =>
      cases h
      exact List.prefix_refl _
    next rest' hstep =>
      have hlen := nextStep_length hstep
      exact ih rest'.length (by rwa [← hl]) h rfl
    next a rest' hstep =>
      have hlen := nextStep_length hstep
      exact (List.prefix_append _ _).trans (ih rest'.length (by rwa [← hl]) h rfl)

structure Tag where
  name : Text
  attrs : List Attr
  selfClosing : Bool
  deriving DecidableEq

def isTagNameChar (c : Char) : Bool := !(isSpace c || c = '/' || c = '>')

/-- A start tag, from behind its `<`, and what follows it. -/
def readTag (s : Text) : Option (Tag × Text) :=
  (readAttributes [] (s.dropWhile isTagNameChar)).map fun read =>
    (⟨s.takeWhile isTagNameChar, read.1, read.2.1⟩, read.2.2)

/-- The value of the attribute `name`: the first of that name counts, in whatever case. -/
def Tag.attribute (refs : References) (tag : Tag) (name : Text) : Option Text :=
  (tag.attrs.find? fun a => toAsciiLowercase a.name = name).map fun a => decode refs a.value

/-- A name that can be written before `=`. -/
def IsAttrName (name : Text) : Prop := name ≠ [] ∧ ∀ c ∈ name, isNameChar c = true

/-- An attribute written with double quotes. -/
def writeAttr (a : Text × Text) : Text := ' ' :: a.1 ++ '=' :: '"' :: a.2 ++ ['"']

theorem takeWhile_append_of_all {p : Char → Bool} {s rest : Text} (hs : ∀ c ∈ s, p c = true)
    (hrest : ∀ c ∈ rest.head?, p c = false) :
    (s ++ rest).takeWhile p = s ∧ (s ++ rest).dropWhile p = rest := by
  have hstop : rest.takeWhile p = [] ∧ rest.dropWhile p = rest := by
    cases rest with
    | nil => exact ⟨rfl, rfl⟩
    | cons c rest =>
      have hc := hrest c rfl
      rw [List.takeWhile_cons, List.dropWhile_cons, hc]
      exact ⟨rfl, rfl⟩
  rw [List.takeWhile_append_of_pos hs, List.dropWhile_append_of_pos hs, hstop.1, hstop.2,
    List.append_nil]
  exact ⟨rfl, rfl⟩

theorem isNameChar_plain {c : Char} (h : isNameChar c = true) :
    isSpace c = false ∧ c ≠ '>' ∧ c ≠ '/' ∧ c ≠ '=' := by
  simp only [isNameChar, Bool.not_eq_true', Bool.or_eq_false_iff, decide_eq_false_iff_not] at h
  exact ⟨h.1.1.1, h.1.2, h.1.1.2, h.2⟩

theorem isAttrName_of_nextStep {s rest : Text} {a : Attr} (h : nextStep s = some (.attr a rest))
    (hfirst : a.name.head? ≠ some '=') : IsAttrName a.name := by
  have hchars : ∀ {c : Char} {rest : Text}, s.dropWhile isSpace = c :: rest → c ≠ '>' → c ≠ '/' →
      c ≠ '=' → IsAttrName (c :: rest.takeWhile isNameChar) := by
    intro c rest hs hgt hslash hequals
    have hspace := List.head?_dropWhile_not isSpace s
    rw [hs] at hspace
    refine ⟨List.cons_ne_nil _ _, ?_⟩
    intro d hd
    rcases List.mem_cons.mp hd with rfl | hd
    · simp [isNameChar, show isSpace d = false by simpa using hspace, hgt, hslash, hequals]
    · exact List.mem_takeWhile_imp hd
  unfold nextStep at h
  split at h
  next => cases h
  next c t hs =>
    split at h
    next => cases h
    next hgt =>
      split at h
      next =>
        split at h
        next => cases h
        next => cases h
      next hslash =>
        dsimp only at h
        split at h
        next =>
          obtain ⟨v, -, heq⟩ := Option.map_eq_some_iff.mp h
          cases heq
          exact hchars hs hgt hslash fun hequals => hfirst (by rw [hequals]; rfl)
        next =>
          cases h
          exact hchars hs hgt hslash fun hequals => hfirst (by rw [hequals]; rfl)

/-- The names that are read can be written before `=`, except where they begin with one. -/
theorem isAttrName_of_readAttributes {read attrs : List Attr} {s rest : Text} {selfClosing : Bool}
    (h : readAttributes read s = some (attrs, selfClosing, rest)) :
    ∀ a ∈ attrs, a ∈ read ∨ (a.name.head? ≠ some '=' → IsAttrName a.name) := by
  induction hl : s.length using Nat.strongRecOn generalizing s read with
  | _ n ih =>
    rw [readAttributes_eq] at h
    split at h
    next => cases h
    next =>
      cases h
      exact fun a ha => .inl ha
    next rest' hstep =>
      have hlen := nextStep_length hstep
      exact ih rest'.length (by rwa [← hl]) h rfl
    next b rest' hstep =>
      have hlen := nextStep_length hstep
      intro a ha
      rcases ih rest'.length (by rwa [← hl]) h rfl a ha with hread | hname
      · rcases List.mem_append.mp hread with hread | hread
        · exact .inl hread
        · cases List.mem_singleton.mp hread
          exact .inr (isAttrName_of_nextStep hstep)
      · exact .inr hname

theorem nextStep_writeAttr {a : Text × Text} (hname : IsAttrName a.1) (hvalue : '"' ∉ a.2)
    (rest : Text) :
    nextStep (writeAttr a ++ rest) = some (.attr ⟨a.1, a.2, false⟩ rest) := by
  obtain ⟨name, value⟩ := a
  obtain ⟨hne, hchars⟩ := hname
  cases name with
  | nil => exact absurd rfl hne
  | cons c name =>
    rw [List.forall_mem_cons] at hchars
    obtain ⟨hspace, hgt, hslash, -⟩ := isNameChar_plain hchars.1
    have hwritten : writeAttr (c :: name, value) ++ rest =
        ' ' :: c :: (name ++ '=' :: '"' :: (value ++ '"' :: rest)) := by
      simp [writeAttr]
    have hdrop : (' ' :: c :: (name ++ '=' :: '"' :: (value ++ '"' :: rest))).dropWhile isSpace =
        c :: (name ++ '=' :: '"' :: (value ++ '"' :: rest)) := by
      rw [List.dropWhile_cons_of_pos (by decide), List.dropWhile_cons_of_neg (by simp [hspace])]
    have hstop : ∀ d ∈ ('=' :: '"' :: (value ++ '"' :: rest)).head?, isNameChar d = false := by
      intro d hd
      cases hd
      decide
    obtain ⟨htake, hafter⟩ := takeWhile_append_of_all hchars.2 hstop
    have hequals : ('=' :: '"' :: (value ++ '"' :: rest)).dropWhile isSpace =
        '=' :: '"' :: (value ++ '"' :: rest) := List.dropWhile_cons_of_neg (by decide)
    have hquote : ('"' :: (value ++ '"' :: rest)).dropWhile isSpace =
        '"' :: (value ++ '"' :: rest) := List.dropWhile_cons_of_neg (by decide)
    have hcut : cutAt '"' (value ++ '"' :: rest) = some (value, rest) :=
      cutAt_eq_some_iff.mpr ⟨rfl, hvalue⟩
    unfold nextStep
    rw [hwritten, hdrop]
    dsimp only
    rw [if_neg hgt, if_neg hslash, hafter, htake, hequals, List.head?_cons, if_pos rfl, List.tail_cons,
      hquote, attrValue, if_pos (.inl rfl), hcut]
    rfl

theorem readAttributes_written {attrs : List (Text × Text)}
    (h : ∀ a ∈ attrs, IsAttrName a.1 ∧ '"' ∉ a.2) (read : List Attr) (rest : Text) :
    readAttributes read (attrs.flatMap writeAttr ++ '>' :: rest) =
      some (read ++ attrs.map fun a => ⟨a.1, a.2, false⟩, false, rest) := by
  induction attrs generalizing read with
  | nil =>
    rw [readAttributes_eq]
    simp [nextStep, isSpace]
  | cons a attrs ih =>
    rw [List.forall_mem_cons] at h
    rw [List.flatMap_cons, List.append_assoc, readAttributes_eq,
      nextStep_writeAttr h.1.1 h.1.2]
    dsimp only
    rw [ih h.2, List.append_assoc]
    rfl

end Tags

end Kernway.Html
