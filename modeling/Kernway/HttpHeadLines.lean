import Kernway.HttpFraming

namespace Kernway

/-- A head of these lines, ended by a blank one. -/
def headOf (ls : List Text) : Text := ls.flatMap (· ++ ['\r', '\n']) ++ ['\r', '\n']

/-- The line is not blank and has no line feed in it. -/
def IsLine (l : Text) : Prop := l ≠ [] ∧ '\n' ∉ l

theorem headOf_cons (l : Text) (ls : List Text) :
    headOf (l :: ls) = l ++ '\r' :: '\n' :: headOf ls := by
  simp [headOf]

theorem encodeUtf8_crlf (s : Text) : encodeUtf8 ('\r' :: '\n' :: s) = 13 :: 10 :: encodeUtf8 s :=
  rfl

theorem cutAt_line {l : Text} (h : '\n' ∉ l) (rest : Text) :
    cutAt '\n' (l ++ '\r' :: '\n' :: rest) = some (l ++ ['\r'], rest) :=
  cutAt_eq_some_iff.mpr ⟨by simp, by simpa using h⟩

theorem lines_headOf {ls : List Text} (h : ∀ l ∈ ls, '\n' ∉ l) :
    lines (headOf ls) = ls ++ [[]] := by
  have hline : ∀ {l rest : Text}, '\n' ∉ l → lines (l ++ '\r' :: '\n' :: rest) = l :: lines rest := by
    intro l rest hl
    rw [lines]
    split
    next hcut =>
      rw [cutAt_line hl rest] at hcut
      cases hcut
    next line rest' hcut =>
      rw [cutAt_line hl rest] at hcut
      cases hcut
      rw [stripSuffix, if_pos (by simp), List.dropLast_concat]
  induction ls with
  | nil =>
    have hblank := @hline [] [] List.not_mem_nil
    rw [lines] at hblank
    exact hblank
  | cons l ls ih =>
    rw [List.forall_mem_cons] at h
    rw [headOf_cons, hline h.1, ih h.2, List.cons_append]

theorem findHeadEndFrom_headOf {ls : List Text} (h : ∀ l ∈ ls, IsLine l) (rest : Bytes)
    (pos n : Nat) : findHeadEndFrom (encodeUtf8 (headOf ls) ++ rest) pos n =
      some (pos + (encodeUtf8 (headOf ls)).length, n + ls.length) := by
  have hcut : ∀ {l : Text} {rest : Bytes}, '\n' ∉ l →
      cutAt 10 (encodeUtf8 l ++ 13 :: 10 :: rest) = some (encodeUtf8 l ++ [13], rest) := by
    intro l rest hl
    refine cutAt_eq_some_iff.mpr ⟨by simp, ?_⟩
    have hmem : (10 : UInt8) ∉ encodeUtf8 l :=
      fun hmem => hl ((mem_encodeUtf8_ascii (d := '\n') (by decide)).mp hmem)
    simpa using hmem
  induction ls generalizing pos n with
  | nil =>
    have hblank : encodeUtf8 (headOf []) ++ rest = encodeUtf8 [] ++ 13 :: 10 :: rest := rfl
    rw [hblank, findHeadEndFrom_some (hcut List.not_mem_nil)]
    rfl
  | cons l ls ih =>
    rw [List.forall_mem_cons] at h
    have hsplit : encodeUtf8 (headOf (l :: ls)) ++ rest =
        encodeUtf8 l ++ 13 :: 10 :: (encodeUtf8 (headOf ls) ++ rest) := by
      rw [headOf_cons, encodeUtf8_append, encodeUtf8_crlf, List.append_assoc]
      rfl
    have hstrip : stripSuffix 13 (encodeUtf8 l ++ [13]) = encodeUtf8 l := by simp [stripSuffix]
    have hne : encodeUtf8 l ≠ [] := by
      intro hempty
      exact h.1.1 (encodeUtf8_injective hempty)
    have hlen := congrArg List.length hsplit
    simp only [List.length_append, List.length_cons] at hlen
    rw [hsplit, findHeadEndFrom_some (hcut h.1.2), hstrip, if_neg hne, ih h.2]
    simp only [List.length_append, List.length_cons, List.length_nil, Option.some.injEq,
      Prod.mk.injEq]
    omega

/-- A head of lines is read as it stands, if it is short enough. -/
theorem headText_headOf {ls : List Text} (h : ∀ l ∈ ls, IsLine l) (rest : Bytes) :
    headText (encodeUtf8 (headOf ls) ++ rest) =
      if maxHeadBytes < (encodeUtf8 (headOf ls)).length then none
      else some (headOf ls, (encodeUtf8 (headOf ls)).length) := by
  have hend : findHeadEnd (encodeUtf8 (headOf ls) ++ rest) =
      some ((encodeUtf8 (headOf ls)).length, ls.length) := by
    rw [findHeadEnd, findHeadEndFrom_headOf h, Nat.zero_add, Nat.zero_add]
  simp only [headText, hend, Option.bind_eq_bind, Option.bind_some, List.take_left,
    decodeUtf8_encodeUtf8, Option.map_some]

theorem infix_trim (s : Text) : ∃ before after, s = before ++ trim s ++ after := by
  obtain ⟨before, hbefore⟩ := List.dropWhile_suffix (l := s) isWhitespace
  obtain ⟨after, hafter⟩ := List.rdropWhile_prefix isWhitespace (s.dropWhile isWhitespace)
  refine ⟨before, after, ?_⟩
  rw [List.append_assoc]
  exact (hbefore.symm).trans (congrArg (before ++ ·) hafter.symm)

theorem trim_trim (s : Text) : trim (trim s) = trim s := by
  obtain ⟨before, after, hs⟩ := infix_trim s
  have hfront : trim s = [] ∨ ∃ c t, trim s = c :: t ∧ isWhitespace c = false := by
    cases ht : trim s with
    | nil => exact Or.inl rfl
    | cons c t => exact Or.inr ⟨c, t, rfl, trim_head ht⟩
  rcases hfront with hempty | ⟨c, t, ht, hc⟩
  · rw [hempty]
    rfl
  · have hdrop : (trim s).dropWhile isWhitespace = trim s := by
      rw [ht, List.dropWhile_cons_of_neg (by simp [hc])]
    rw [trim, hdrop, trim, List.rdropWhile_idempotent]

theorem length_trim_le (s : Text) : (encodeUtf8 (trim s)).length ≤ (encodeUtf8 s).length := by
  obtain ⟨before, after, hs⟩ := infix_trim s
  have hlen := congrArg (fun t => (encodeUtf8 t).length) hs
  simp only [encodeUtf8_append, List.length_append] at hlen
  omega

theorem queryPair_length {pair : Text} {p : Text × Text} (h : queryPair pair = some p) :
    fieldBytes [p] ≤ (encodeUtf8 pair).length := by
  unfold queryPair at h
  split at h
  next => cases h
  next =>
    dsimp only at h
    split at h
    next => cases h
    next =>
      cases h
      cases hcut : cutAt '=' pair with
      | none => simp [fieldBytes]
      | some cut =>
        obtain ⟨key, val⟩ := cut
        obtain ⟨rfl, -⟩ := cutAt_eq_some_iff.mp hcut
        simp [fieldBytes]

/-- The pairs of a query take no more bytes than the query. -/
theorem queryPairs_length (query : Text) :
    fieldBytes ((query.splitOn '&').filterMap queryPair) ≤ (encodeUtf8 query).length := by
  have hone : ∀ (pair : Text) (pairs : List Text),
      fieldBytes ((pair :: pairs).filterMap queryPair) ≤
        (encodeUtf8 pair).length + fieldBytes (pairs.filterMap queryPair) := by
    intro pair pairs
    rw [List.filterMap_cons]
    cases hp : queryPair pair with
    | none => simp
    | some p =>
      have hle := queryPair_length hp
      simp only [fieldBytes, List.map_cons, List.sum_cons, List.map_nil, List.sum_nil] at hle ⊢
      omega
  induction hl : query.length using Nat.strongRecOn generalizing query with
  | _ n ih =>
    subst hl
    cases hcut : cutAt '&' query with
    | none =>
      rw [List.splitOn_eq_singleton (cutAt_eq_none_iff.mp hcut)]
      have hle := hone query []
      simpa [fieldBytes] using hle
    | some cut =>
      obtain ⟨pair, rest⟩ := cut
      have hlen := cutAt_length hcut
      obtain ⟨rfl, hn⟩ := cutAt_eq_some_iff.mp hcut
      rw [List.splitOn_append_cons_self_of_not_mem hn]
      have hle := hone pair (rest.splitOn '&')
      have hrest := ih rest.length (by omega) rest rfl
      simp only [encodeUtf8_append, encodeUtf8_cons, List.length_append]
      omega

/-- A character that the name of a header may have. -/
def isTokenChar (c : Char) : Bool := c.isAlphanum || c ∈ "!#$%&'*+-.^_|~".toList || c == '\x60'

def IsToken (name : Text) : Prop := name ≠ [] ∧ ∀ c ∈ name, isTokenChar c = true

end Kernway
