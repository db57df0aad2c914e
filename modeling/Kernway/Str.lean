import Kernway.Utf8
import Mathlib.Data.List.DropRight

namespace Kernway

/-- `split_once(d)`: what stands before and after the first `d`, if there is one. -/
def cutAt {α : Type} [DecidableEq α] (d : α) : List α → Option (List α × List α)
  | [] => none
  | a :: as => if a = d then some ([], as) else (cutAt d as).map fun p => (a :: p.1, p.2)

theorem cutAt_eq_some_iff {α : Type} [DecidableEq α] {d : α} {xs before after : List α} :
    cutAt d xs = some (before, after) ↔ xs = before ++ d :: after ∧ d ∉ before := by
  induction xs generalizing before with
  | nil => simp [cutAt]
  | cons x xs ih =>
    by_cases hx : x = d
    · subst hx
      cases before with
      | nil => simp [cutAt, eq_comm]
      | cons b before =>
        simp only [cutAt, if_true, Option.some.injEq, Prod.mk.injEq, List.nil_eq, reduceCtorEq,
          false_and, List.cons_append, List.cons.injEq, List.mem_cons, not_or, false_iff]
        rintro ⟨⟨rfl, _⟩, hn, _⟩
        exact hn rfl
    · cases before with
      | nil => simp [cutAt, hx]
      | cons b before =>
        simp only [cutAt, hx, if_false, Option.map_eq_some_iff, Prod.exists, Prod.mk.injEq]
        constructor
        · rintro ⟨u, v, h, hu, rfl⟩
          obtain ⟨rfl, rfl⟩ := List.cons.inj hu
          obtain ⟨rfl, hn⟩ := ih.mp h
          simp [hn, Ne.symm hx]
        · rintro ⟨h, hn⟩
          obtain ⟨rfl, rfl⟩ := List.cons.inj h
          exact ⟨before, after, ih.mpr ⟨rfl, fun h => hn (List.mem_cons_of_mem _ h)⟩, rfl, rfl⟩

theorem cutAt_eq_none_iff {α : Type} [DecidableEq α] {d : α} {xs : List α} :
    cutAt d xs = none ↔ d ∉ xs := by
  induction xs with
  | nil => simp [cutAt]
  | cons x xs ih =>
    by_cases hx : x = d
    · simp [cutAt, hx]
    · simp [cutAt, hx, ih, Ne.symm hx]

theorem cutAt_append {α : Type} [DecidableEq α] {d : α} {xs before after : List α}
    (h : cutAt d xs = some (before, after)) (ext : List α) :
    cutAt d (xs ++ ext) = some (before, after ++ ext) := by
  obtain ⟨rfl, hn⟩ := cutAt_eq_some_iff.1 h
  exact cutAt_eq_some_iff.2 ⟨by simp, hn⟩

theorem cutAt_length {α : Type} [DecidableEq α] {d : α} {xs before after : List α}
    (h : cutAt d xs = some (before, after)) : xs.length = before.length + 1 + after.length := by
  obtain ⟨rfl, _⟩ := cutAt_eq_some_iff.1 h
  simp only [List.length_append, List.length_cons]
  omega

theorem mem_intercalate {α : Type} {x s : α} {ls : List (List α)} (hx : x ≠ s) :
    x ∈ [s].intercalate ls ↔ ∃ l ∈ ls, x ∈ l := by
  induction ls with
  | nil => simp
  | cons l ls ih =>
    cases ls with
    | nil => simp
    | cons l' ls => simp [ih, hx]

theorem notMem_of_mem_splitOn {α : Type} [DecidableEq α] {x : α} {xs l : List α}
    (h : l ∈ xs.splitOn x) : x ∉ l := by
  induction hl : xs.length using Nat.strongRecOn generalizing xs with
  | _ n ih =>
    cases hc : cutAt x xs with
    | none =>
      have hn := cutAt_eq_none_iff.1 hc
      rw [List.splitOn_eq_singleton hn, List.mem_singleton] at h
      rwa [h]
    | some p =>
      obtain ⟨before, after⟩ := p
      have hlen := cutAt_length hc
      obtain ⟨rfl, hn⟩ := cutAt_eq_some_iff.1 hc
      rw [List.splitOn_append_cons_self_of_not_mem hn, List.mem_cons] at h
      rcases h with rfl | h
      · exact hn
      · exact ih after.length (by omega) h rfl

theorem mem_of_mem_splitOn {α : Type} [DecidableEq α] {x c : α} {xs l : List α}
    (h : l ∈ xs.splitOn x) (hc : c ∈ l) : c ∈ xs := by
  have hne : c ≠ x := by
    rintro rfl
    exact notMem_of_mem_splitOn h hc
  have hmem := (mem_intercalate hne).mpr ⟨l, h, hc⟩
  rwa [List.intercalate_splitOn] at hmem

theorem mem_encodeUtf8_ascii {d : Char} (hd : d.toNat ≤ 127) {s : Text} :
    UInt8.ofNat d.toNat ∈ encodeUtf8 s ↔ d ∈ s := by
  constructor
  · intro h
    obtain ⟨c, hc, hb⟩ := List.mem_flatMap.mp h
    have heq : c.toNat = d.toNat := mem_utf8EncodeChar_ascii hd hb
    rwa [← Char.toNat_inj.mp heq]
  · intro h
    exact List.mem_flatMap.mpr ⟨d, h, by simp [utf8EncodeChar_ascii hd]⟩

/-- Cutting encoded text at an ASCII byte is cutting the text at that character. -/
theorem cutAt_encodeUtf8 {d : Char} (hd : d.toNat ≤ 127) (s : Text) :
    cutAt (UInt8.ofNat d.toNat) (encodeUtf8 s) =
      (cutAt d s).map fun p => (encodeUtf8 p.1, encodeUtf8 p.2) := by
  cases h : cutAt d s with
  | none =>
    rw [cutAt_eq_none_iff] at h
    simpa [cutAt_eq_none_iff, mem_encodeUtf8_ascii hd] using h
  | some p =>
    obtain ⟨rfl, hn⟩ := cutAt_eq_some_iff.1 h
    simp only [Option.map_some, cutAt_eq_some_iff, encodeUtf8_append, encodeUtf8_cons,
      utf8EncodeChar_ascii hd, mem_encodeUtf8_ascii hd]
    exact ⟨by simp, hn⟩

/-- `strip_suffix` of one element, the list itself where it does not end so. -/
def stripSuffix {α : Type} [DecidableEq α] (d : α) (xs : List α) : List α :=
  if xs.getLast? = some d then xs.dropLast else xs

/-- `char::is_whitespace`, the Unicode property `White_Space`. -/
def isWhitespace (c : Char) : Bool :=
  let n := c.toNat
  (9 ≤ n && n ≤ 13) || n == 0x20 || n == 0x85 || n == 0xa0 || n == 0x1680 ||
    (0x2000 ≤ n && n ≤ 0x200a) || n == 0x2028 || n == 0x2029 || n == 0x202f || n == 0x205f ||
    n == 0x3000

/-- `str::find` and `split_once`: what stands before and after the first `pat`. -/
def cutText (pat : Text) : Text → Option (Text × Text)
  | [] => if pat = [] then some ([], []) else none
  | c :: s =>
    if pat.isPrefixOf (c :: s) then some ([], (c :: s).drop pat.length)
    else (cutText pat s).map fun p => (c :: p.1, p.2)

theorem cutText_eq_some {pat s before after : Text} (h : cutText pat s = some (before, after)) :
    s = before ++ pat ++ after := by
  induction s generalizing before with
  | nil =>
    unfold cutText at h
    split at h
    next hp =>
      cases Option.some.inj h
      rw [hp]
      rfl
    next => simp at h
  | cons c s ih =>
    unfold cutText at h
    split at h
    next hp =>
      cases Option.some.inj h
      obtain ⟨t, ht⟩ := List.isPrefixOf_iff_prefix.mp hp
      rw [← ht, List.drop_left, List.nil_append]
    next =>
      obtain ⟨p, hcut, hp⟩ := Option.map_eq_some_iff.mp h
      obtain ⟨rfl, rfl⟩ := Prod.mk.inj hp
      rw [ih hcut, List.cons_append, List.cons_append]

theorem isPrefixOf?_eq_some {pat s rest : Text} (h : pat.isPrefixOf? s = some rest) :
    s = pat ++ rest := by
  induction pat generalizing s with
  | nil => exact Option.some.inj h
  | cons c pat ih =>
    cases s with
    | nil => simp [List.isPrefixOf?] at h
    | cons d s =>
      simp only [List.isPrefixOf?] at h
      split at h
      next hcd => rw [ih h, eq_of_beq hcd, List.cons_append]
      next => simp at h

theorem isPrefixOf?_append (pat rest : Text) : pat.isPrefixOf? (pat ++ rest) = some rest := by
  induction pat with
  | nil => rfl
  | cons c pat ih => simp [List.isPrefixOf?, ih]

def containsText (s pat : Text) : Bool := (cutText pat s).isSome

theorem containsText_iff {s pat : Text} :
    containsText s pat = true ↔ ∃ before after, s = before ++ pat ++ after := by
  constructor
  · intro h
    obtain ⟨⟨before, after⟩, hcut⟩ := Option.isSome_iff_exists.mp h
    exact ⟨before, after, cutText_eq_some hcut⟩
  · rintro ⟨before, after, rfl⟩
    induction before with
    | nil =>
      cases h : pat ++ after with
      | nil =>
        obtain ⟨rfl, rfl⟩ := List.append_eq_nil_iff.mp h
        rfl
      | cons c s =>
        have hpre : pat.isPrefixOf (c :: s) = true :=
          List.isPrefixOf_iff_prefix.mpr ⟨after, h⟩
        simp [containsText, h, cutText, hpre]
    | cons c before ih =>
      simp only [List.cons_append, containsText, cutText] at ih ⊢
      split
      next => rfl
      next => rwa [Option.isSome_map]

def trim (s : Text) : Text := (s.dropWhile isWhitespace).rdropWhile isWhitespace

/-- `str::lines`: the text cut after every `\n`, each line without its `\n` or `\r\n`. -/
@[semireducible] def lines (s : Text) : List Text :=
  match _h : cutAt '\n' s with
  | none => if s = [] then [] else [s]
  | some (line, rest) => stripSuffix '\r' line :: lines rest
termination_by s.length
decreasing_by have := cutAt_length _h; omega

def toAsciiUppercase (s : Text) : Text := s.map Char.toUpper

def toAsciiLowercase (s : Text) : Text := s.map Char.toLower

theorem toLower_high {c : Char} (h : 127 < c.toNat) : c.toLower = c := by
  have hc : ¬ c.val ≤ 'Z'.val := by
    rw [UInt32.le_iff_toNat_le]
    exact Nat.not_le.mpr (Nat.lt_trans (by decide) h)
  exact dif_neg fun h => hc h.2

theorem toUpper_high {c : Char} (h : 127 < c.toNat) : c.toUpper = c := by
  have hc : ¬ c.val ≤ 'z'.val := by
    rw [UInt32.le_iff_toNat_le]
    exact Nat.not_le.mpr (Nat.lt_trans (by decide) h)
  exact dif_neg fun h => hc h.2

def eqIgnoreAsciiCase (s t : Text) : Bool := toAsciiLowercase s == toAsciiLowercase t

def isAsciiDigit (c : Char) : Bool := '0' ≤ c && c ≤ '9'

def digitsValue (s : Text) : Nat := s.foldl (fun n c => 10 * n + (c.toNat - '0'.toNat)) 0

/-- `str::parse::<usize>` with 64-bit words: an optional `+`, then digits that do not overflow. -/
def parseUsize (s : Text) : Option Nat :=
  let digits := match s with
    | '+' :: rest => rest
    | _ => s
  if digits ≠ [] ∧ digits.all isAsciiDigit ∧ digitsValue digits < 2 ^ 64 then
    some (digitsValue digits)
  else none

example : lines "GET / \r\n\r\nx".toList = ["GET / ".toList, [], ['x']] := by decide

/-- `u64::to_string`. -/
def decimal (n : UInt64) : Text := Nat.toDigits 10 n.toNat

def parseI64 (s : Text) : Option Int64 :=
  let (negative, digits) := match s with
    | '-' :: digits => (true, digits)
    | '+' :: digits => (false, digits)
    | digits => (false, digits)
  let limit := if negative then 2 ^ 63 + 1 else 2 ^ 63
  if digits ≠ [] ∧ digits.all isAsciiDigit ∧ digitsValue digits < limit then
    some (.ofInt (if negative then -(digitsValue digits : Int) else digitsValue digits))
  else none

/-- `i64::to_string`. -/
def decimalI64 (n : Int64) : Text :=
  match n.toInt with
  | .ofNat n => Nat.toDigits 10 n
  | .negSucc n => '-' :: Nat.toDigits 10 (n + 1)

end Kernway
