import Kernway.Str
import Kernway.Utf8Lossy

namespace Kernway.Form

def hexValue (b : UInt8) : Option Nat :=
  let n := b.toNat
  if '0'.toNat ≤ n ∧ n ≤ '9'.toNat then some (n - '0'.toNat)
  else if 'A'.toNat ≤ n ∧ n ≤ 'F'.toNat then some (n - 'A'.toNat + 10)
  else if 'a'.toNat ≤ n ∧ n ≤ 'f'.toNat then some (n - 'a'.toNat + 10)
  else none

/-- The byte of the two hexadecimal digits in front. -/
def escaped : Bytes → Option UInt8
  | h :: l :: _ => (hexValue h).bind fun h => (hexValue l).map fun l => .ofNat (h * 16 + l)
  | _ => none

/-- The bytes of `application/x-www-form-urlencoded`: a plus is a space, an escape its byte, and a
per cent sign that begins no escape stays. -/
@[semireducible] def unescape (bytes : Bytes) : Bytes :=
  match bytes with
  | [] => []
  | b :: rest =>
    match if b = 37 then escaped rest else none with
    | some byte => byte :: unescape (rest.drop 2)
    | none => (if b = 43 then 32 else b) :: unescape rest
termination_by bytes.length
decreasing_by all_goals simp only [List.length_drop, List.length_cons]; omega

def decode (s : Text) : Text := decodeUtf8Lossy (unescape (encodeUtf8 s))

/-- The name and the value of one piece. -/
def pair (piece : Text) : Text × Text :=
  let (name, value) := (cutAt '=' piece).getD (piece, [])
  (decode name, decode value)

/-- The names and values of a query. -/
def pairs (query : Text) : List (Text × Text) :=
  ((query.splitOn '&').filter (· ≠ [])).map pair

theorem unescape_plain {b : UInt8} (h : b ≠ 37) (h' : b ≠ 43) (rest : Bytes) :
    unescape (b :: rest) = b :: unescape rest := by
  rw [unescape, if_neg h, if_neg h']

theorem unescape_escape {h l : UInt8} {n m : Nat} (hh : hexValue h = some n)
    (hl : hexValue l = some m) (rest : Bytes) :
    unescape (37 :: h :: l :: rest) = .ofNat (n * 16 + m) :: unescape rest := by
  have hbyte : escaped (h :: l :: rest) = some (.ofNat (n * 16 + m)) := by
    show ((hexValue h).bind fun h => (hexValue l).map fun l => UInt8.ofNat (h * 16 + l)) = _
    rw [hh, hl]
    rfl
  rw [unescape, if_pos rfl, hbyte]
  rfl

theorem pairs_nil : pairs [] = [] := by
  unfold pairs
  rw [List.splitOn_nil]
  rfl

theorem pairs_single {piece : Text} (h : '&' ∉ piece) (hne : piece ≠ []) :
    pairs piece = [pair piece] := by
  unfold pairs
  rw [List.splitOn_eq_singleton h, List.filter_cons_of_pos (by simpa using hne)]
  rfl

theorem pairs_cons {piece : Text} (h : '&' ∉ piece) (rest : Text) :
    pairs (piece ++ '&' :: rest) = pairs piece ++ pairs rest := by
  unfold pairs
  rw [List.splitOn_append_cons_self_of_not_mem h, List.splitOn_eq_singleton h, ← List.map_append,
    ← List.filter_append, List.singleton_append]

/-- The name in front of the first equals sign, and the value behind it. -/
theorem pair_eq {name value : Text} (h : '=' ∉ name) :
    pair (name ++ '=' :: value) = (decode name, decode value) := by
  have hcut : cutAt '=' (name ++ '=' :: value) = some (name, value) :=
    cutAt_eq_some_iff.mpr ⟨rfl, h⟩
  unfold pair
  rw [hcut]
  rfl

theorem pairs_intercalate {pieces : List Text} (h : ∀ piece ∈ pieces, '&' ∉ piece ∧ piece ≠ []) :
    pairs (['&'].intercalate pieces) = pieces.map pair := by
  induction pieces with
  | nil => exact pairs_nil
  | cons piece pieces ih =>
    obtain ⟨hpiece, hne⟩ := h piece (List.mem_cons_self ..)
    have hrest := ih fun p hp => h p (List.mem_cons_of_mem piece hp)
    cases pieces with
    | nil =>
      have hsingle : ['&'].intercalate [piece] = piece := by simp
      rw [hsingle, pairs_single hpiece hne]
      rfl
    | cons next pieces =>
      have hcons : ['&'].intercalate (piece :: next :: pieces) =
          piece ++ '&' :: ['&'].intercalate (next :: pieces) := by
        simp [List.intercalate]
      rw [hcons, pairs_cons hpiece, hrest, pairs_single hpiece hne]
      rfl

/-- The names and values of a query are cut at each `&`. -/
theorem pairs_append (query rest : Text) : pairs (query ++ '&' :: rest) = pairs query ++ pairs rest := by
  induction hlength : query.length using Nat.strong_induction_on generalizing query with
  | _ n ih =>
    subst hlength
    cases hcut : cutAt '&' query with
    | none => exact pairs_cons (cutAt_eq_none_iff.mp hcut) rest
    | some p =>
      obtain ⟨rfl, hpiece⟩ := cutAt_eq_some_iff.mp hcut
      have hlt : p.2.length < (p.1 ++ '&' :: p.2).length := by
        rw [List.length_append, List.length_cons]
        omega
      rw [List.append_assoc, List.cons_append, pairs_cons hpiece, pairs_cons hpiece,
        ih p.2.length hlt p.2 rfl, List.append_assoc]

/-- A text that is joined to a query by a question mark adds none of its names as it is: its first
piece becomes a part of the query's last one. -/
theorem pairs_question_ne {piece : Text} (hpiece : '&' ∉ piece) {rest : Text} {tail : List (Text × Text)}
    (hrest : rest = [] ∧ tail = [] ∨ ∃ more, rest = '&' :: more ∧ tail = pairs more)
    (hname : pair ('?' :: piece) ≠ pair piece) (query : Text) :
    pairs (query ++ '?' :: (piece ++ rest)) ≠ pairs query ++ pair piece :: tail := by
  induction hlength : query.length using Nat.strong_induction_on generalizing query with
  | _ n ih =>
    subst hlength
    cases hcut : cutAt '&' query with
    | none =>
      have hquery := cutAt_eq_none_iff.mp hcut
      have hjoined : '&' ∉ query ++ '?' :: piece := by
        rw [List.mem_append, List.mem_cons]
        rintro (h | h | h)
        · exact hquery h
        · cases h
        · exact hpiece h
      have hne : query ++ '?' :: piece ≠ [] := by simp
      have hall : pairs (query ++ '?' :: (piece ++ rest)) = pair (query ++ '?' :: piece) :: tail := by
        have hassoc : query ++ '?' :: (piece ++ rest) = query ++ '?' :: piece ++ rest := by simp
        rw [hassoc]
        rcases hrest with ⟨rfl, rfl⟩ | ⟨more, rfl, rfl⟩
        · rw [List.append_nil]
          exact pairs_single hjoined hne
        · rw [pairs_cons hjoined, pairs_single hjoined hne]
          rfl
      rw [hall]
      intro heq
      by_cases hnil : query = []
      · rw [hnil, pairs_nil] at heq
        exact hname (List.cons.inj heq).1
      · rw [pairs_single hquery hnil] at heq
        have hcount := congrArg List.length heq
        simp at hcount
    | some p =>
      obtain ⟨rfl, hfront⟩ := cutAt_eq_some_iff.mp hcut
      have hlt : p.2.length < (p.1 ++ '&' :: p.2).length := by
        rw [List.length_append, List.length_cons]
        omega
      rw [List.append_assoc, List.cons_append, pairs_cons hfront, pairs_cons hfront,
        List.append_assoc]
      exact fun heq => ih p.2.length hlt p.2 rfl (List.append_cancel_left heq)

end Kernway.Form
