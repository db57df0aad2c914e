import Kernway.Bans

namespace Kernway

/-- The `k` digits of a number in a base, the highest first. -/
def digitsIn (base : Nat) : Nat → Nat → List Nat
  | 0, _ => []
  | k + 1, n => digitsIn base k (n / base) ++ [n % base]

def ofDigitsIn (base : Nat) (digits : List Nat) : Nat := digits.foldl (fun n d => base * n + d) 0

theorem length_digitsIn (base k n : Nat) : (digitsIn base k n).length = k := by
  induction k generalizing n with
  | zero => rfl
  | succ k ih => rw [digitsIn, List.length_append, ih, List.length_singleton]

theorem lt_of_mem_digitsIn {base k n d : Nat} (hb : 0 < base) (h : d ∈ digitsIn base k n) :
    d < base := by
  induction k generalizing n with
  | zero => cases h
  | succ k ih =>
    rcases List.mem_append.mp h with h | h
    · exact ih h
    · rw [List.mem_singleton.mp h]
      exact Nat.mod_lt n hb

theorem ofDigitsIn_digitsIn {base k n : Nat} (h : n < base ^ k) :
    ofDigitsIn base (digitsIn base k n) = n := by
  induction k generalizing n with
  | zero => exact (Nat.lt_one_iff.mp h).symm
  | succ k ih =>
    have hdiv : n / base < base ^ k := by
      apply Nat.div_lt_of_lt_mul
      rwa [Nat.mul_comm, ← Nat.pow_succ]
    have hstep : ofDigitsIn base (digitsIn base (k + 1) n) =
        base * ofDigitsIn base (digitsIn base k (n / base)) + n % base := by
      rw [ofDigitsIn, digitsIn, List.foldl_append]
      rfl
    rw [hstep, ih hdiv, Nat.div_add_mod]

namespace IpAddr

/-- `char::to_digit`. -/
def toDigit (radix : Nat) (c : Char) : Option Nat :=
  let d :=
    if '0' ≤ c ∧ c ≤ '9' then c.toNat - 48
    else if 'a' ≤ c ∧ c ≤ 'z' then c.toNat - 87
    else if 'A' ≤ c ∧ c ≤ 'Z' then c.toNat - 55
    else radix
  if d < radix then some d else none

/-! What the standard library reads an address from, each reader with the rest of its input. -/

def readGiven (given : Char) : Text → Option Text
  | [] => none
  | c :: s => if c = given then some s else none

/-- Digits up to the first other character. -/
def readNumber (radix maxDigits limit : Nat) (allowZero : Bool) (s : Text) : Option (Nat × Text) :=
  let digits := s.takeWhile fun c => (toDigit radix c).isSome
  let value := digits.foldl (fun n c => radix * n + (toDigit radix c).getD 0) 0
  if digits = [] ∨ maxDigits < digits.length ∨
      allowZero = false ∧ digits.head? = some '0' ∧ 1 < digits.length ∨ limit ≤ value then none
  else some (value, s.dropWhile fun c => (toDigit radix c).isSome)

/-- A part that a separator stands before, unless it is the first. -/
def readSeparated {α : Type} (sep : Char) (first : Bool) (inner : Text → Option (α × Text))
    (s : Text) : Option (α × Text) := do
  let s ← if first then some s else readGiven sep s
  inner s

def readOctet : Text → Option (Nat × Text) := readNumber 10 3 256 false

def readIpv4 (s : Text) : Option (BitVec 32 × Text) := do
  let (a, s) ← readSeparated '.' true readOctet s
  let (b, s) ← readSeparated '.' false readOctet s
  let (c, s) ← readSeparated '.' false readOctet s
  let (d, s) ← readSeparated '.' false readOctet s
  some (.ofNat 32 (ofDigitsIn 256 [a, b, c, d]), s)

def readGroup : Text → Option (Nat × Text) := readNumber 16 4 65536 true

/-- Up to `left` groups, and whether the last two of them were an embedded IPv4 address, for which
there is no place in the last one. -/
def readGroups : Nat → Bool → Text → List Nat × Bool × Text
  | 0, _, s => ([], false, s)
  | left + 1, first, s =>
    match if 0 < left then readSeparated ':' first readIpv4 s else none with
    | some (bits, s) => ([bits.toNat / 65536, bits.toNat % 65536], true, s)
    | none =>
      match readSeparated ':' first readGroup s with
      | some (group, s) =>
        let (groups, ipv4, s) := readGroups left false s
        (group :: groups, ipv4, s)
      | none => ([], false, s)

def readIpv6 (s : Text) : Option (BitVec 128 × Text) := do
  let (head, ipv4, s) := readGroups 8 true s
  if head.length = 8 then some (.ofNat 128 (ofDigitsIn 65536 head), s)
  else if ipv4 then none
  else
    let s ← readGiven ':' s
    let s ← readGiven ':' s
    let (tail, _, s) := readGroups (8 - (head.length + 1)) true s
    let zeros := List.replicate (8 - head.length - tail.length) 0
    some (.ofNat 128 (ofDigitsIn 65536 (head ++ zeros ++ tail)), s)

/-- `str::parse::<IpAddr>`. -/
def parse (s : Text) : Option IpAddr :=
  match readIpv4 s with
  | some (bits, rest) => if rest = [] then some (.v4 bits) else none
  | none =>
    match readIpv6 s with
    | some (bits, rest) => if rest = [] then some (.v6 bits) else none
    | none => none

/-! How the standard library writes an address. -/

def displayV4 (bits : BitVec 32) : Text :=
  ['.'].intercalate ((digitsIn 256 4 bits.toNat).map (Nat.toDigits 10))

structure Span where
  start : Nat := 0
  len : Nat := 0

/-- The first longest run of zeros. -/
def longestZeros : Nat → List Nat → Span → Span → Span
  | _, [], longest, _ => longest
  | i, segment :: segments, longest, current =>
    if segment = 0 then
      let current : Span := ⟨if current.len = 0 then i else current.start, current.len + 1⟩
      longestZeros (i + 1) segments (if longest.len < current.len then current else longest) current
    else longestZeros (i + 1) segments longest {}

def fmtSubslice : List Nat → Text
  | [] => []
  | first :: tail => Nat.toDigits 16 first ++ tail.flatMap fun segment => ':' :: Nat.toDigits 16 segment

def displayV6 (bits : BitVec 128) : Text :=
  let segments := digitsIn 65536 8 bits.toNat
  if segments.take 6 = [0, 0, 0, 0, 0, 0xffff] then
    [':', ':', 'f', 'f', 'f', 'f', ':'] ++ displayV4 (bits.setWidth 32)
  else
    let zeros := longestZeros 0 segments {} {}
    if 1 < zeros.len then
      fmtSubslice (segments.take zeros.start) ++
        ':' :: ':' :: fmtSubslice (segments.drop (zeros.start + zeros.len))
    else fmtSubslice segments

def display : IpAddr → Text
  | v4 bits => displayV4 bits
  | v6 bits => displayV6 bits

section Numbers

variable {radix : Nat}

theorem toDigit_digitChar {d : Nat} (hr : radix ≤ 16) (hd : d < radix) :
    toDigit radix d.digitChar = some d := by
  have hvalue : (if '0' ≤ d.digitChar ∧ d.digitChar ≤ '9' then d.digitChar.toNat - 48
      else if 'a' ≤ d.digitChar ∧ d.digitChar ≤ 'z' then d.digitChar.toNat - 87
      else if 'A' ≤ d.digitChar ∧ d.digitChar ≤ 'Z' then d.digitChar.toNat - 55
      else radix) = d := by
    have hlt : d < 16 := by omega
    match d with
    | 0 | 1 | 2 | 3 | 4 | 5 | 6 | 7 | 8 | 9 | 10 | 11 | 12 | 13 | 14 | 15 => rfl
    | _ + 16 => omega
  rw [toDigit, hvalue]
  exact if_pos hd

/-- Each character of a written number is a digit, and the first is no zero but that of 0. -/
theorem toDigits_chars (h₁ : 1 < radix) (h₂ : radix ≤ 16) (n : Nat) :
    (∀ c ∈ Nat.toDigits radix n, (toDigit radix c).isSome = true) ∧
      (Nat.toDigits radix n).foldl (fun m c => radix * m + (toDigit radix c).getD 0) 0 = n ∧
      (0 < n → (Nat.toDigits radix n).head? ≠ some '0') := by
  induction n using Nat.base_induction radix h₁ with
  | single m hm =>
    rw [Nat.toDigits_of_lt_base hm]
    refine ⟨fun c hc => ?_, ?_, fun hpos hzero => ?_⟩
    · rw [List.mem_singleton.mp hc, toDigit_digitChar h₂ hm]
      rfl
    · simp [toDigit_digitChar h₂ hm]
    · have hm0 : m = 0 := by simpa using hzero
      omega
  | digit m k hk hm ih =>
    obtain ⟨hall, hvalue, hhead⟩ := ih
    rw [← Nat.toDigits_append_toDigits h₁ hm hk, Nat.toDigits_of_lt_base hk]
    refine ⟨fun c hc => ?_, ?_, fun _ hzero => ?_⟩
    · rcases List.mem_append.mp hc with hc | hc
      · exact hall c hc
      · rw [List.mem_singleton.mp hc, toDigit_digitChar h₂ hk]
        rfl
    · rw [List.foldl_append, hvalue]
      simp [toDigit_digitChar h₂ hk]
    · rw [List.head?_append_of_ne_nil _ Nat.toDigits_ne_nil] at hzero
      exact hhead hm hzero

theorem takeWhile_digits (h₁ : 1 < radix) (h₂ : radix ≤ 16) (n : Nat) {rest : Text}
    (hrest : ∀ c, rest.head? = some c → toDigit radix c = none) :
    (Nat.toDigits radix n ++ rest).takeWhile (fun c => (toDigit radix c).isSome) =
      Nat.toDigits radix n := by
  have hnone : rest.takeWhile (fun c => (toDigit radix c).isSome) = [] := by
    cases rest with
    | nil => rfl
    | cons c rest => rw [List.takeWhile_cons_of_neg (by rw [hrest c rfl]; simp)]
  rw [List.takeWhile_append_of_pos (toDigits_chars h₁ h₂ n).1, hnone, List.append_nil]

/-- A number is read back from its digits, before what is no digit. -/
theorem readNumber_toDigits (h₁ : 1 < radix) (h₂ : radix ≤ 16) {maxDigits limit n : Nat}
    (hmax : 0 < maxDigits) (hlength : n < radix ^ maxDigits) (hlimit : n < limit)
    (allowZero : Bool) {rest : Text} (hrest : ∀ c, rest.head? = some c → toDigit radix c = none) :
    readNumber radix maxDigits limit allowZero (Nat.toDigits radix n ++ rest) = some (n, rest) := by
  obtain ⟨-, hvalue, hhead⟩ := toDigits_chars h₁ h₂ n
  have hfew : ¬ maxDigits < (Nat.toDigits radix n).length :=
    Nat.not_lt.mpr ((Nat.length_toDigits_le_iff h₁ hmax).mpr hlength)
  have hzero : ¬ (allowZero = false ∧ (Nat.toDigits radix n).head? = some '0' ∧
      1 < (Nat.toDigits radix n).length) := by
    rintro ⟨-, hfirst, hlong⟩
    have hn : n = 0 := by
      by_contra hne
      exact hhead (Nat.pos_of_ne_zero hne) hfirst
    rw [hn, Nat.toDigits_zero] at hlong
    exact absurd hlong (by decide)
  have hleft : (Nat.toDigits radix n ++ rest).dropWhile (fun c => (toDigit radix c).isSome) = rest := by
    have hsplit := List.takeWhile_append_dropWhile
      (p := fun c => (toDigit radix c).isSome) (l := Nat.toDigits radix n ++ rest)
    rw [takeWhile_digits h₁ h₂ n hrest] at hsplit
    exact List.append_cancel_left hsplit
  unfold readNumber
  dsimp only
  rw [takeWhile_digits h₁ h₂ n hrest, hvalue, hleft]
  exact if_neg (by simp [hfew, hzero, Nat.not_le.mpr hlimit])

theorem readNumber_none {maxDigits limit : Nat} {allowZero : Bool} {s : Text}
    (h : ∀ c, s.head? = some c → toDigit radix c = none) :
    readNumber radix maxDigits limit allowZero s = none := by
  have hnone : s.takeWhile (fun c => (toDigit radix c).isSome) = [] := by
    cases s with
    | nil => rfl
    | cons c s => rw [List.takeWhile_cons_of_neg (by rw [h c rfl]; simp)]
  unfold readNumber
  dsimp only
  rw [hnone]
  exact if_pos (.inl rfl)

/-- What is left once a number has been read does not begin with a digit. -/
theorem readNumber_rest {maxDigits limit n : Nat} {allowZero : Bool} {s rest : Text}
    (h : readNumber radix maxDigits limit allowZero s = some (n, rest)) :
    rest = s.dropWhile fun c => (toDigit radix c).isSome := by
  unfold readNumber at h
  dsimp only at h
  split at h
  next => cases h
  next => exact (Prod.mk.inj (Option.some.inj h)).2.symm

end Numbers

section Readers

variable {α : Type} {inner : Text → Option (α × Text)} {s rest : Text}

theorem readSeparated_first (sep : Char) : readSeparated sep true inner s = inner s := rfl

theorem readSeparated_next (sep : Char) : readSeparated sep false inner (sep :: s) = inner s := by
  simp [readSeparated, readGiven]

theorem readSeparated_none {sep : Char} (h : s.head? ≠ some sep) :
    readSeparated sep false inner s = none := by
  cases s with
  | nil => rfl
  | cons c s =>
    have hc : c ≠ sep := fun heq => h (congrArg some heq)
    simp [readSeparated, readGiven, hc]

/-- Nothing that a decimal digit begins. -/
def NoDigit (rest : Text) : Prop := ∀ c, rest.head? = some c → toDigit 10 c = none

theorem noDigit_cons {c : Char} (h : toDigit 10 c = none) (s : Text) : NoDigit (c :: s) := by
  intro c' hc
  rwa [← Option.some.inj hc]

theorem readOctet_toDigits {n : Nat} (h : n < 256) (hrest : NoDigit rest) :
    readOctet (Nat.toDigits 10 n ++ rest) = some (n, rest) :=
  readNumber_toDigits (by decide) (by decide) (by decide) (by omega) h false hrest

theorem readIpv4_displayV4 (bits : BitVec 32) (hrest : NoDigit rest) :
    readIpv4 (displayV4 bits ++ rest) = some (bits, rest) := by
  have hlength := length_digitsIn 256 4 bits.toNat
  have hsmall : ∀ d ∈ digitsIn 256 4 bits.toNat, d < 256 := fun d hd =>
    lt_of_mem_digitsIn (by decide) hd
  have hvalue : ofDigitsIn 256 (digitsIn 256 4 bits.toNat) = bits.toNat :=
    ofDigitsIn_digitsIn bits.isLt
  unfold displayV4
  generalize digitsIn 256 4 bits.toNat = digits at hlength hsmall hvalue
  obtain ⟨a, b, c, d, rfl⟩ := List.length_eq_four.mp hlength
  have htext : ['.'].intercalate ([a, b, c, d].map (Nat.toDigits 10)) ++ rest =
      Nat.toDigits 10 a ++ ('.' :: (Nat.toDigits 10 b ++ ('.' :: (Nat.toDigits 10 c ++
        ('.' :: (Nat.toDigits 10 d ++ rest)))))) := by
    simp [List.intercalate]
  have hdot : ∀ s, NoDigit ('.' :: s) := noDigit_cons rfl
  rw [htext, readIpv4]
  simp only [readSeparated_first, readSeparated_next, Option.bind_eq_bind, Option.bind_some,
    readOctet_toDigits (hsmall a (by simp)) (hdot _), readOctet_toDigits (hsmall b (by simp)) (hdot _),
    readOctet_toDigits (hsmall c (by simp)) (hdot _), readOctet_toDigits (hsmall d (by simp)) hrest,
    hvalue, BitVec.ofNat_toNat, BitVec.setWidth_eq]

/-- No IPv4 address is read where the first number does not end at a dot. -/
theorem readIpv4_none (h : ∀ s', s = s.takeWhile (fun c => (toDigit 10 c).isSome) ++ s' →
    s'.head? ≠ some '.') : readIpv4 s = none := by
  unfold readIpv4
  cases ha : readSeparated '.' true readOctet s with
  | none => rfl
  | some p =>
    obtain ⟨a, s'⟩ := p
    have hs' := readNumber_rest ha
    have hdot := h s' (by rw [hs', List.takeWhile_append_dropWhile])
    simp only [Option.bind_eq_bind, Option.bind_some, readSeparated_none hdot, Option.bind_none]

/-- What may follow a group: the end, or a colon. -/
def Colon (rest : Text) : Prop := rest = [] ∨ ∃ s, rest = ':' :: s

theorem Colon.noHexDigit (h : Colon rest) : ∀ c, rest.head? = some c → toDigit 16 c = none := by
  rcases h with rfl | ⟨s, rfl⟩
  · exact fun c hc => nomatch hc
  · intro c hc
    rw [← Option.some.inj hc]
    rfl

/-- Nor at a hexadecimal group. -/
theorem readIpv4_group (g : Nat) (hrest : Colon rest) :
    readIpv4 (Nat.toDigits 16 g ++ rest) = none := by
  apply readIpv4_none
  intro s' hsplit hdot
  obtain ⟨s'', rfl⟩ : ∃ s'', s' = '.' :: s'' := by
    cases s' with
    | nil => cases hdot
    | cons c s'' => exact ⟨s'', by rw [Option.some.inj hdot]⟩
  have hnotdot : ∀ s, rest ≠ '.' :: s := by
    rintro s rfl
    rcases hrest with h | ⟨_, h⟩ <;> cases h
  rcases List.append_eq_append_iff.mp hsplit with ⟨mid, hdigits, htail⟩ | ⟨mid, hgroup, htail⟩
  · cases mid with
    | nil => exact hnotdot s'' htail
    | cons c mid =>
      -- The digits would go on past the colon.
      obtain ⟨s, rfl⟩ := hrest.resolve_left (by rw [htail]; simp)
      obtain ⟨rfl, -⟩ := List.cons.inj htail
      have hmem : ':' ∈ (Nat.toDigits 16 g ++ ':' :: s).takeWhile
          fun c => (toDigit 10 c).isSome := by
        rw [hdigits]
        simp
      exact absurd (List.mem_takeWhile_imp hmem) (by decide)
  · cases mid with
    | nil => exact hnotdot s'' htail.symm
    | cons c mid =>
      obtain ⟨rfl, -⟩ := List.cons.inj htail
      have hmem : '.' ∈ Nat.toDigits 16 g := by
        rw [hgroup]
        simp
      exact absurd ((toDigits_chars (by decide) (by decide) g).1 '.' hmem) (by decide)

theorem readIpv4_colon (s : Text) : readIpv4 (':' :: s) = none := by
  have hnone : readOctet (':' :: s) = none :=
    readNumber_none fun c hc => by rw [← Option.some.inj hc]; rfl
  rw [readIpv4, readSeparated_first, hnone]
  rfl

theorem readGroup_toDigits {g : Nat} (h : g < 65536) (hrest : Colon rest) :
    readGroup (Nat.toDigits 16 g ++ rest) = some (g, rest) :=
  readNumber_toDigits (by decide) (by decide) (by decide) h h true hrest.noHexDigit

theorem readGroup_colon (s : Text) : readGroup (':' :: s) = none :=
  readNumber_none fun c hc => by rw [← Option.some.inj hc]; rfl

/-- What the groups of one side end at: the end, or two colons. -/
def Stop (rest : Text) : Prop := rest = [] ∨ ∃ s, rest = ':' :: ':' :: s

theorem Stop.colon (h : Stop rest) : Colon rest := h.imp_right fun ⟨s, hs⟩ => ⟨':' :: s, hs⟩

/-- The groups after the first, each behind its colon. -/
def fmtTail (groups : List Nat) : Text := groups.flatMap fun g => ':' :: Nat.toDigits 16 g

theorem colon_fmtTail (groups : List Nat) (hrest : Stop rest) : Colon (fmtTail groups ++ rest) := by
  cases groups with
  | nil => exact hrest.colon
  | cons g groups => exact .inr ⟨_, by rw [fmtTail, List.flatMap_cons]; rfl⟩

theorem readGroups_stop (left : Nat) (hrest : Stop rest) : readGroups left false rest = ([], false, rest) := by
  cases left with
  | zero => rfl
  | succ left =>
    have hnone : ∀ {α : Type} {inner : Text → Option (α × Text)}, (∀ s, inner (':' :: s) = none) →
        readSeparated ':' false inner rest = none := by
      intro α inner hinner
      rcases hrest with rfl | ⟨s, rfl⟩
      · rfl
      · rw [readSeparated_next, hinner]
    rw [readGroups, hnone readIpv4_colon, hnone readGroup_colon, ite_self]

theorem readGroups_fmtTail (groups : List Nat) {left : Nat} (hlength : groups.length ≤ left)
    (hsmall : ∀ g ∈ groups, g < 65536) (hrest : Stop rest) :
    readGroups left false (fmtTail groups ++ rest) = (groups, false, rest) := by
  induction groups generalizing left with
  | nil => exact readGroups_stop left hrest
  | cons g groups ih =>
    obtain ⟨left, rfl⟩ : ∃ n, left = n + 1 := ⟨left - 1, by simp at hlength; omega⟩
    have htext : fmtTail (g :: groups) ++ rest =
        ':' :: (Nat.toDigits 16 g ++ (fmtTail groups ++ rest)) := by
      simp [fmtTail]
    have hcolon := colon_fmtTail groups hrest
    rw [htext, readGroups, readSeparated_next, readIpv4_group g hcolon, ite_self]
    simp only [readSeparated_next, readGroup_toDigits (hsmall g (List.mem_cons_self ..)) hcolon]
    rw [ih (by simpa using hlength) fun g' hg' => hsmall g' (List.mem_cons_of_mem _ hg')]

theorem fmtSubslice_cons (g : Nat) (groups : List Nat) (rest : Text) :
    fmtSubslice (g :: groups) ++ rest = Nat.toDigits 16 g ++ (fmtTail groups ++ rest) := by
  simp [fmtSubslice, fmtTail]

theorem readIpv4_fmtSubslice (groups : List Nat) (hrest : Stop rest) :
    readIpv4 (fmtSubslice groups ++ rest) = none := by
  cases groups with
  | nil =>
    rcases hrest with rfl | ⟨s, rfl⟩
    · rfl
    · exact readIpv4_colon _
  | cons g groups =>
    rw [fmtSubslice_cons]
    exact readIpv4_group g (colon_fmtTail groups hrest)

theorem readGroups_fmtSubslice (groups : List Nat) {left : Nat} (hlength : groups.length ≤ left)
    (hsmall : ∀ g ∈ groups, g < 65536) (hrest : Stop rest) :
    readGroups left true (fmtSubslice groups ++ rest) = (groups, false, rest) := by
  have hv4 := readIpv4_fmtSubslice groups hrest
  cases groups with
  | nil =>
    cases left with
    | zero => rfl
    | succ left =>
      have hgroup : readGroup (fmtSubslice [] ++ rest) = none := by
        rcases hrest with rfl | ⟨s, rfl⟩
        · rfl
        · exact readGroup_colon _
      rw [readGroups, readSeparated_first, readSeparated_first, hv4, hgroup, ite_self]
      rfl
  | cons g groups =>
    obtain ⟨left, rfl⟩ : ∃ n, left = n + 1 := ⟨left - 1, by simp at hlength; omega⟩
    have hcolon := colon_fmtTail groups hrest
    rw [readGroups, readSeparated_first, hv4, ite_self, fmtSubslice_cons]
    simp only [readSeparated_first, readGroup_toDigits (hsmall g (List.mem_cons_self ..)) hcolon]
    rw [readGroups_fmtTail groups (by simpa using hlength)
      (fun g' hg' => hsmall g' (List.mem_cons_of_mem _ hg')) hrest]

end Readers

section Zeros

/-- A span of a list where it has zeros only. -/
def ZeroRun (segments : List Nat) (span : Span) : Prop :=
  ∃ before after, segments = before ++ List.replicate span.len 0 ++ after ∧
    before.length = span.start

theorem ZeroRun.append {segments : List Nat} {span : Span} (h : ZeroRun segments span)
    (more : List Nat) : ZeroRun (segments ++ more) span := by
  obtain ⟨before, after, rfl, hstart⟩ := h
  exact ⟨before, after ++ more, by simp, hstart⟩

theorem zeroRun_longestZeros {i : Nat} (segments : List Nat) {longest current : Span}
    {past : List Nat} (hi : past.length = i) (hlongest : ZeroRun past longest)
    (hcurrent : ∃ before, past = before ++ List.replicate current.len 0 ∧
      (current.len ≠ 0 → before.length = current.start)) :
    ZeroRun (past ++ segments) (longestZeros i segments longest current) := by
  induction segments generalizing i longest current past with
  | nil => rwa [List.append_nil]
  | cons segment segments ih =>
    have happ : past ++ segment :: segments = (past ++ [segment]) ++ segments := by simp
    have hlength : (past ++ [segment]).length = i + 1 := by simp [hi]
    rw [happ, longestZeros]
    split
    next hzero =>
      subst hzero
      obtain ⟨before, hpast, hstart⟩ := hcurrent
      have hrun : past ++ [0] = before ++ List.replicate (current.len + 1) 0 := by
        rw [List.replicate_succ', ← List.append_assoc, ← hpast]
      have hbegin : before.length = if current.len = 0 then i else current.start := by
        split
        next hlen => simpa [hpast, hlen] using hi
        next hlen => exact hstart hlen
      have hnew : ZeroRun (past ++ [0])
          ⟨if current.len = 0 then i else current.start, current.len + 1⟩ :=
        ⟨before, [], by rw [hrun, List.append_nil], hbegin⟩
      refine ih hlength ?_ ⟨before, hrun, fun _ => hbegin⟩
      by_cases hlonger : longest.len < current.len + 1
      · rw [if_pos hlonger]
        exact hnew
      · rw [if_neg hlonger]
        exact hlongest.append [0]
    next => exact ih hlength (hlongest.append _) ⟨past ++ [segment], by simp, fun h => absurd rfl h⟩

end Zeros

/-- The three ways in which the segments of an address are written. -/
theorem displayV6_cases (bits : BitVec 128) : ∃ segments : List Nat,
    (segments.length = 8 ∧ (∀ g ∈ segments, g < 65536) ∧ ofDigitsIn 65536 segments = bits.toNat) ∧
    ((∃ low : BitVec 32,
        segments = [0, 0, 0, 0, 0, 65535, low.toNat / 65536, low.toNat % 65536] ∧
        displayV6 bits = ':' :: ':' :: (Nat.toDigits 16 65535 ++ ':' :: displayV4 low)) ∨
      (∃ before len after, 1 < len ∧ segments = before ++ List.replicate len 0 ++ after ∧
        displayV6 bits = fmtSubslice before ++ ':' :: ':' :: fmtSubslice after) ∨
      displayV6 bits = fmtSubslice segments) := by
  have hlength := length_digitsIn 65536 8 bits.toNat
  have hsmall : ∀ g ∈ digitsIn 65536 8 bits.toNat, g < 65536 := fun g hg =>
    lt_of_mem_digitsIn (by decide) hg
  have hvalue : ofDigitsIn 65536 (digitsIn 65536 8 bits.toNat) = bits.toNat :=
    ofDigitsIn_digitsIn bits.isLt
  refine ⟨digitsIn 65536 8 bits.toNat, ⟨hlength, hsmall, hvalue⟩, ?_⟩
  unfold displayV6
  dsimp only
  split
  next hmapped =>
    refine .inl ⟨bits.setWidth 32, ?_, rfl⟩
    have hsix := length_digitsIn 65536 6 (bits.toNat / 65536 / 65536)
    have hlast : digitsIn 65536 8 bits.toNat = digitsIn 65536 6 (bits.toNat / 65536 / 65536) ++
        [bits.toNat / 65536 % 65536] ++ [bits.toNat % 65536] := by
      rw [digitsIn, digitsIn]
    rw [hlast, List.append_assoc, List.take_left' hsix] at hmapped
    have hlow : (bits.setWidth 32).toNat = bits.toNat % 2 ^ 32 := BitVec.toNat_setWidth ..
    have hhi : bits.toNat / 65536 % 65536 = (bits.setWidth 32).toNat / 65536 := by omega
    have hlo : bits.toNat % 65536 = (bits.setWidth 32).toNat % 65536 := by omega
    rw [hlast, hmapped, hhi, hlo]
    rfl
  next =>
    split
    next hlong =>
      have hrun : ZeroRun ([] ++ digitsIn 65536 8 bits.toNat)
          (longestZeros 0 (digitsIn 65536 8 bits.toNat) {} {}) :=
        zeroRun_longestZeros _ rfl ⟨[], [], rfl, rfl⟩ ⟨[], rfl, fun _ => rfl⟩
      obtain ⟨before, after, hsegments, hstart⟩ := hrun
      rw [List.nil_append] at hsegments
      refine .inr (.inl ⟨before, _, after, hlong, hsegments, ?_⟩)
      have hdrop : (before ++ List.replicate (longestZeros 0 (digitsIn 65536 8 bits.toNat) {} {}).len 0).length =
          before.length + (longestZeros 0 (digitsIn 65536 8 bits.toNat) {} {}).len := by simp
      generalize longestZeros 0 (digitsIn 65536 8 bits.toNat) {} {} = zeros at *
      rw [← hstart, hsegments, List.drop_left' hdrop, List.append_assoc, List.take_left]
    next => exact .inr (.inr rfl)


theorem readIpv6_displayV6 (bits : BitVec 128) : readIpv6 (displayV6 bits) = some (bits, []) := by
  have hend : Stop [] := .inl rfl
  have hcolons : ∀ s, Stop (':' :: ':' :: s) := fun s => .inr ⟨s, rfl⟩
  obtain ⟨segments, ⟨hlength, hsmall, hvalue⟩, hcases⟩ := displayV6_cases bits
  rcases hcases with ⟨low, hsegments, htext⟩ | ⟨before, len, after, hlen, hsegments, htext⟩ | htext
  · have hhead : readGroups 8 true (displayV6 bits) = ([], false, displayV6 bits) := by
      rw [htext]
      exact readGroups_fmtSubslice [] (by decide) (fun g hg => nomatch hg) (hcolons _)
    have hv4 := readIpv4_displayV4 low (show NoDigit [] from fun c hc => nomatch hc)
    rw [List.append_nil] at hv4
    have hcolon : Colon (':' :: displayV4 low) := .inr ⟨_, rfl⟩
    have htail : readGroups 7 true (Nat.toDigits 16 65535 ++ ':' :: displayV4 low) =
        ([65535, low.toNat / 65536, low.toNat % 65536], true, []) := by
      rw [readGroups, readSeparated_first, readIpv4_group 65535 hcolon, ite_self]
      simp only [readSeparated_first, readGroup_toDigits (by decide : 65535 < 65536) hcolon]
      rw [readGroups, readSeparated_next, hv4]
      rfl
    have hbits : ofDigitsIn 65536
        [0, 0, 0, 0, 0, 65535, low.toNat / 65536, low.toNat % 65536] = bits.toNat := by
      rw [← hsegments, hvalue]
    rw [readIpv6, hhead, htext]
    simp only [readGiven, if_true, Option.bind_eq_bind, Option.bind_some, List.length_nil, htail]
    rw [if_neg (by decide), if_neg (by decide)]
    refine congrArg some (Prod.ext ?_ rfl)
    change BitVec.ofNat 128 (ofDigitsIn 65536
      [0, 0, 0, 0, 0, 65535, low.toNat / 65536, low.toNat % 65536]) = bits
    rw [hbits, BitVec.ofNat_toNat, BitVec.setWidth_eq]
  · have hsum : before.length + len + after.length = 8 := by
      rw [← hlength, hsegments, List.length_append, List.length_append, List.length_replicate]
    have hhead : readGroups 8 true (displayV6 bits) =
        (before, false, ':' :: ':' :: fmtSubslice after) := by
      rw [htext]
      exact readGroups_fmtSubslice before (by omega)
        (fun g hg => hsmall g (by rw [hsegments]; simp [hg])) (hcolons _)
    have htail : readGroups (8 - (before.length + 1)) true (fmtSubslice after) =
        (after, false, []) := by
      have hread := readGroups_fmtSubslice after (by omega : after.length ≤ 8 - (before.length + 1))
        (fun g hg => hsmall g (by rw [hsegments]; simp [hg])) hend
      rwa [List.append_nil] at hread
    have hzeros : 8 - before.length - after.length = len := by omega
    rw [readIpv6, hhead]
    simp only [readGiven, if_true, Option.bind_eq_bind, Option.bind_some, htail, hzeros,
      ← hsegments, hvalue, BitVec.ofNat_toNat, BitVec.setWidth_eq]
    rw [if_neg (by omega), if_neg (by decide)]
  · have hread := readGroups_fmtSubslice segments hlength.le hsmall hend
    rw [List.append_nil] at hread
    simp only [readIpv6, htext, hread, hlength, if_true, hvalue, BitVec.ofNat_toNat,
      BitVec.setWidth_eq]

theorem readIpv4_displayV6 (bits : BitVec 128) : readIpv4 (displayV6 bits) = none := by
  obtain ⟨segments, -, hcases⟩ := displayV6_cases bits
  rcases hcases with ⟨low, -, htext⟩ | ⟨before, len, after, -, -, htext⟩ | htext
  · rw [htext]
    exact readIpv4_colon _
  · rw [htext]
    exact readIpv4_fmtSubslice before (.inr ⟨_, rfl⟩)
  · have hread := readIpv4_fmtSubslice segments (.inl rfl)
    rwa [List.append_nil, ← htext] at hread

/-- An address is read back from its text. -/
theorem parse_display (ip : IpAddr) : parse (display ip) = some ip := by
  cases ip with
  | v4 bits =>
    have hread := readIpv4_displayV4 bits (show NoDigit [] from fun c hc => nomatch hc)
    rw [List.append_nil] at hread
    rw [display, parse, hread]
    rfl
  | v6 bits =>
    rw [display, parse, readIpv4_displayV6, readIpv6_displayV6]
    rfl

end IpAddr

end Kernway
