import Kernway.Str

namespace Kernway.Json

/-- A character of a string, or a code unit of UTF-16 that stands escaped in it. -/
abbrev Piece := Char ⊕ Nat

def hexDigit (c : Char) : Option Nat :=
  if '0' ≤ c ∧ c ≤ '9' then some (c.toNat - '0'.toNat)
  else if 'a' ≤ c ∧ c ≤ 'f' then some (c.toNat - 'a'.toNat + 10)
  else if 'A' ≤ c ∧ c ≤ 'F' then some (c.toNat - 'A'.toNat + 10)
  else none

def codeUnit (a b c d : Char) : Option Nat := do
  let a ← hexDigit a
  let b ← hexDigit b
  let c ← hexDigit c
  let d ← hexDigit d
  return ((a * 16 + b) * 16 + c) * 16 + d

def escaped (c : Char) : Option Char :=
  if c = '"' ∨ c = '\\' ∨ c = '/' then some c
  else if c = 'b' then some '\x08'
  else if c = 'f' then some '\x0c'
  else if c = 'n' then some '\n'
  else if c = 'r' then some '\r'
  else if c = 't' then some '\t'
  else none

/-- A string from behind its opening quote on, and what is left behind the closing one. Characters
below the blank stand in it only escaped. -/
def readPieces : Text → Option (List Piece × Text)
  | [] => none
  | '"' :: rest => some ([], rest)
  | '\\' :: 'u' :: a :: b :: c :: d :: rest => do
    let unit ← codeUnit a b c d
    let (pieces, rest) ← readPieces rest
    return (.inr unit :: pieces, rest)
  | '\\' :: c :: rest => do
    let c ← escaped c
    let (pieces, rest) ← readPieces rest
    return (.inl c :: pieces, rest)
  | c :: rest =>
    if c.toNat < 0x20 ∨ c = '\\' then none
    else do
      let (pieces, rest) ← readPieces rest
      return (.inl c :: pieces, rest)

/-- The text of a string: a high surrogate takes the low one behind it, and none stands alone. -/
def combine : List Piece → Option Text
  | [] => some []
  | .inl c :: rest => (combine rest).map fun s => c :: s
  | .inr unit :: rest =>
    if unit < 0xd800 ∨ 0xdfff < unit then (combine rest).map fun s => Char.ofNat unit :: s
    else
      match rest with
      | .inr low :: rest =>
        if unit < 0xdc00 ∧ 0xdc00 ≤ low ∧ low ≤ 0xdfff then
          (combine rest).map fun s =>
            Char.ofNat (0x10000 + (unit - 0xd800) * 0x400 + (low - 0xdc00)) :: s
        else none
      | _ => none

def readString (s : Text) : Option (Text × Text) := do
  let '"' :: rest := s | none
  let (pieces, rest) ← readPieces rest
  let text ← combine pieces
  return (text, rest)

def isBlank (c : Char) : Bool := c == ' ' || c == '\t' || c == '\n' || c == '\r'

def skipBlanks (s : Text) : Text := s.dropWhile isBlank

/-- A member whose value is a string. -/
def readMember (s : Text) : Option ((Text × Text) × Text) := do
  let (key, rest) ← readString (skipBlanks s)
  let ':' :: rest := skipBlanks rest | none
  let (value, rest) ← readString (skipBlanks rest)
  return ((key, value), skipBlanks rest)

/-- The members from here to the closing brace, of which there are at most as many as the bound. -/
def readMembers : Nat → Text → Option (List (Text × Text) × Text)
  | 0, _ => none
  | n + 1, s => do
    let (member, rest) ← readMember s
    match rest with
    | '\x7d' :: rest => return ([member], rest)
    | ',' :: rest => do
      let (members, rest) ← readMembers n rest
      return (member :: members, rest)
    | _ => none

/-- An object whose values are strings, with nothing but blanks around it. -/
def parseObject (s : Text) : Option (List (Text × Text)) := do
  let '\x7b' :: rest := skipBlanks s | none
  let (members, rest) ←
    match skipBlanks rest with
    | '\x7d' :: rest => some ([], rest)
    | rest => readMembers rest.length rest
  if skipBlanks rest = [] then some members else none

theorem readPieces_plain {c : Char} (hquote : c ≠ '"') (hslash : c ≠ '\\') (hc : 0x20 ≤ c.toNat)
    (rest : Text) :
    readPieces (c :: rest) = (readPieces rest).map fun p => (.inl c :: p.1, p.2) := by
  rw [readPieces.eq_5 _ _ (fun h => hquote h) (fun _ _ _ _ _ h _ => hslash h) fun _ _ h _ => hslash h]
  rw [if_neg (by rintro (h | h); omega; exact hslash h)]
  cases readPieces rest <;> rfl

theorem readPieces_escaped {c c' : Char} (hc : escaped c = some c') (rest : Text) :
    readPieces ('\\' :: c :: rest) = (readPieces rest).map fun p => (.inl c' :: p.1, p.2) := by
  have hu : c ≠ 'u' := by
    intro h
    have hnone : escaped 'u' = none := by decide
    rw [h, hnone] at hc
    cases hc
  rw [readPieces.eq_4 _ _ fun _ _ _ _ _ h _ => hu h, hc]
  cases readPieces rest <;> rfl

theorem readPieces_unit {a b c d : Char} {unit : Nat} (hunit : codeUnit a b c d = some unit)
    (rest : Text) :
    readPieces ('\\' :: 'u' :: a :: b :: c :: d :: rest) =
      (readPieces rest).map fun p => (.inr unit :: p.1, p.2) := by
  show (codeUnit a b c d).bind _ = _
  rw [hunit]
  cases readPieces rest <;> rfl

theorem combine_char (c : Char) (pieces : List Piece) :
    combine (.inl c :: pieces) = (combine pieces).map fun s => c :: s := rfl

theorem combine_unit {unit : Nat} (h : unit < 0xd800) (pieces : List Piece) :
    combine (.inr unit :: pieces) = (combine pieces).map fun s => Char.ofNat unit :: s := by
  rw [combine.eq_def]
  exact if_pos (.inl h)

/-- A writer of strings that a reader takes back, whatever stands behind them. -/
def Quotes (quote : Text → Text) : Prop :=
  ∀ s rest, readString (quote s ++ rest) = some (s, rest)

section

variable {quote : Text → Text}

def member (quote : Text → Text) (m : Text × Text) : Text := quote m.1 ++ ':' :: quote m.2

theorem quote_head (hq : Quotes quote) (s : Text) : ∃ rest, quote s = '"' :: rest := by
  have hread := hq s []
  rw [List.append_nil] at hread
  cases hs : quote s with
  | nil =>
    rw [hs] at hread
    cases hread
  | cons c rest =>
    by_cases hc : c = '"'
    · rw [hc]
      exact ⟨rest, rfl⟩
    · have hnone : readString (c :: rest) = none := by
        unfold readString
        split
        next heq => exact absurd (List.cons.inj heq).1 hc
        next => rfl
      rw [hs, hnone] at hread
      cases hread

theorem skipBlanks_of_head {c : Char} (hc : isBlank c = false) (rest : Text) :
    skipBlanks (c :: rest) = c :: rest := by
  unfold skipBlanks
  rw [List.dropWhile_cons, hc]
  rfl

theorem skipBlanks_quote (hq : Quotes quote) (s rest : Text) :
    skipBlanks (quote s ++ rest) = quote s ++ rest := by
  obtain ⟨tail, htail⟩ := quote_head hq s
  rw [htail]
  exact skipBlanks_of_head (by decide) _

theorem readMember_written (hq : Quotes quote) (m : Text × Text) (rest : Text) :
    readMember (member quote m ++ rest) = some (m, skipBlanks rest) := by
  unfold readMember member
  rw [List.append_assoc, skipBlanks_quote hq, hq]
  show (do
    let ':' :: rest := skipBlanks (':' :: (quote m.2 ++ rest)) | none
    let (value, rest) ← readString (skipBlanks rest)
    return ((m.1, value), skipBlanks rest)) = _
  rw [skipBlanks_of_head (by decide)]
  show (do
    let (value, rest) ← readString (skipBlanks (quote m.2 ++ rest))
    return ((m.1, value), skipBlanks rest)) = _
  rw [skipBlanks_quote hq, hq]
  rfl

theorem intercalate_cons_of_ne {x : Text} {rest : List Text} (h : rest ≠ []) :
    List.intercalate [','] (x :: rest) = x ++ ',' :: List.intercalate [','] rest := by
  obtain ⟨y, rest, rfl⟩ := List.exists_cons_of_ne_nil h
  simp [List.intercalate]

/-- The members of an object, one behind the other, are read in their order. -/
theorem readMembers_written (hq : Quotes quote) {members : List (Text × Text)} (hne : members ≠ [])
    {n : Nat} (hn : members.length ≤ n) (rest : Text) :
    readMembers n (List.intercalate [','] (members.map (member quote)) ++ '\x7d' :: rest) =
      some (members, rest) := by
  induction members generalizing n with
  | nil => exact absurd rfl hne
  | cons m members ih =>
    obtain ⟨n, rfl⟩ : ∃ k, n = k + 1 := ⟨n - 1, by simp at hn; omega⟩
    cases members with
    | nil =>
      have hone : List.intercalate [','] ([m].map (member quote)) = member quote m := by simp
      rw [hone, readMembers, readMember_written hq, skipBlanks_of_head (by decide)]
      rfl
    | cons m' members =>
      have hmore : List.intercalate [','] ((m :: m' :: members).map (member quote)) ++ '\x7d' :: rest =
          member quote m ++ ',' ::
            (List.intercalate [','] ((m' :: members).map (member quote)) ++ '\x7d' :: rest) := by
        rw [List.map_cons, List.map_cons, intercalate_cons_of_ne (List.cons_ne_nil _ _),
          List.append_assoc]
        rfl
      rw [hmore, readMembers, readMember_written hq, skipBlanks_of_head (by decide)]
      show (do
        let (members, rest) ← readMembers n
          (List.intercalate [','] ((m' :: members).map (member quote)) ++ '\x7d' :: rest)
        return (m :: members, rest)) = _
      rw [ih (List.cons_ne_nil m' members) (by simpa using hn)]
      rfl

theorem length_le_members (hq : Quotes quote) (members : List (Text × Text)) :
    members.length ≤ (List.intercalate [','] (members.map (member quote))).length := by
  have hpos : ∀ m, 0 < (member quote m).length := fun m => by
    obtain ⟨tail, htail⟩ := quote_head hq m.1
    unfold member
    rw [htail]
    exact Nat.succ_pos _
  induction members with
  | nil => exact Nat.le_refl 0
  | cons m members ih =>
    have hm := hpos m
    cases members with
    | nil =>
      have hone : List.intercalate [','] ([m].map (member quote)) = member quote m := by simp
      rw [hone]
      exact hm
    | cons m' members =>
      rw [List.map_cons] at ih
      rw [List.map_cons, List.map_cons, intercalate_cons_of_ne (List.cons_ne_nil _ _),
        List.length_append]
      simp only [List.length_cons] at ih ⊢
      omega

/-- An object that is written without blanks is read back. -/
theorem parseObject_written (hq : Quotes quote) {members : List (Text × Text)}
    (hne : members ≠ []) :
    parseObject ('\x7b' :: (List.intercalate [','] (members.map (member quote)) ++ ['\x7d'])) =
      some members := by
  have hread : readMembers (List.intercalate [','] (members.map (member quote)) ++ ['\x7d']).length
      (List.intercalate [','] (members.map (member quote)) ++ ['\x7d']) = some (members, []) := by
    apply readMembers_written hq hne
    have hle := length_le_members hq members
    rw [List.length_append]
    omega
  obtain ⟨tail, htail⟩ : ∃ tail, List.intercalate [','] (members.map (member quote)) ++ ['\x7d'] =
      '"' :: tail := by
    obtain ⟨m, members, rfl⟩ := List.exists_cons_of_ne_nil hne
    obtain ⟨tail, htail⟩ := quote_head hq m.1
    cases members with
    | nil =>
      have hone : List.intercalate [','] ([m].map (member quote)) = member quote m := by simp
      rw [hone, member, htail]
      exact ⟨_, rfl⟩
    | cons m' members =>
      rw [List.map_cons, List.map_cons, intercalate_cons_of_ne (List.cons_ne_nil _ _), member, htail]
      exact ⟨_, rfl⟩
  rw [htail] at hread ⊢
  unfold parseObject
  rw [skipBlanks_of_head (by decide)]
  show (do
    let (members, rest) ←
      match skipBlanks ('"' :: tail) with
      | '\x7d' :: rest => some ([], rest)
      | rest => readMembers rest.length rest
    if skipBlanks rest = [] then some members else none) = _
  rw [skipBlanks_of_head (by decide)]
  show (do
    let (members, rest) ← readMembers ('"' :: tail).length ('"' :: tail)
    if skipBlanks rest = [] then some members else none) = _
  rw [hread]
  rfl

end

end Kernway.Json
