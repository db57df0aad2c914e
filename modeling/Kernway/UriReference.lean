import Kernway.Str
import Mathlib.Algebra.Ring.Nat

namespace Kernway.Uri

/-- The parts of a URI reference, after RFC 3986. -/
structure Reference where
  scheme : Option Text := none
  authority : Option Text := none
  path : Text
  query : Option Text := none
  fragment : Option Text := none
  deriving DecidableEq

/-- The characters that end a scheme. -/
def endsScheme (c : Char) : Bool := c == ':' || c == '/' || c == '?' || c == '#'

def endsAuthority (c : Char) : Bool := c == '/' || c == '?' || c == '#'

def endsPath (c : Char) : Bool := c == '?' || c == '#'

def splitScheme (s : Text) : Option Text × Text :=
  let head := s.takeWhile fun c => !endsScheme c
  match s.dropWhile fun c => !endsScheme c with
  | ':' :: rest => if head = [] then (none, s) else (some head, rest)
  | _ => (none, s)

def splitAuthority : Text → Option Text × Text
  | '/' :: '/' :: rest =>
    (some (rest.takeWhile fun c => !endsAuthority c), rest.dropWhile fun c => !endsAuthority c)
  | s => (none, s)

def splitQuery : Text → Option Text × Text
  | '?' :: rest => (some (rest.takeWhile (· ≠ '#')), rest.dropWhile (· ≠ '#'))
  | s => (none, s)

def splitFragment : Text → Option Text
  | '#' :: rest => some rest
  | _ => none

/-- The parts of a text, as the expression of the RFC's appendix B finds them. -/
def split (s : Text) : Reference :=
  let scheme := splitScheme s
  let authority := splitAuthority scheme.2
  let query := splitQuery (authority.2.dropWhile fun c => !endsPath c)
  { scheme := scheme.1
    authority := authority.1
    path := authority.2.takeWhile fun c => !endsPath c
    query := query.1
    fragment := splitFragment query.2 }

def before (mark : Text) (part : Option Text) : Text :=
  match part with
  | some text => mark ++ text
  | none => []

namespace Reference

variable (r : Reference)

/-- The query and the fragment, as they are written. -/
def tail : Text := before ['?'] r.query ++ before ['#'] r.fragment

/-- What is written behind the scheme. -/
def hierarchy : Text := before ['/', '/'] r.authority ++ (r.path ++ r.tail)

/-- The text of a reference. -/
def text : Text :=
  match r.scheme with
  | some scheme => scheme ++ ':' :: r.hierarchy
  | none => r.hierarchy

/-- What each part of a reference is free of. -/
structure WellFormed (r : Reference) : Prop where
  scheme : ∀ s, r.scheme = some s → s ≠ [] ∧ ∀ c ∈ s, endsScheme c = false
  authority : ∀ a, r.authority = some a → ∀ c ∈ a, endsAuthority c = false
  path : ∀ c ∈ r.path, endsPath c = false
  query : ∀ q, r.query = some q → '#' ∉ q
  rooted : r.authority.isSome → r.path = [] ∨ r.path.head? = some '/'
  single : r.authority = none → ∀ rest, r.path ≠ '/' :: '/' :: rest

end Reference

/-- A segment that names the directory it is in, or the one above. -/
def IsDot (segment : Text) : Prop := segment = ['.'] ∨ segment = ['.', '.']

instance (segment : Text) : Decidable (IsDot segment) := inferInstanceAs (Decidable (_ ∨ _))

/-- What is left behind one more segment, the last one first. A dot at the end leaves its slash. -/
def pushSegment (segment : Text) (last : Bool) (out : List Text) : List Text :=
  if IsDot segment then
    let out := if segment = ['.'] then out else out.tail
    if last then [] :: out else out
  else segment :: out

def mergeSegments : List Text → List Text → List Text
  | [], out => out.reverse
  | segment :: segments, out =>
    mergeSegments segments (pushSegment segment segments.isEmpty out)

/-- `remove_dot_segments` of a path that is empty or begins with a slash. -/
def removeDotSegments : Text → Text
  | '/' :: path => '/' :: List.intercalate ['/'] (mergeSegments (path.splitOn '/') [])
  | path => path

/-- The path up to and with its last slash, and the root where there is none. -/
def directory (path : Text) : Text :=
  match cutAt '/' path.reverse with
  | some (_, dir) => dir.reverse ++ ['/']
  | none => ['/']

/-- The target of a reference against a base that has a scheme and an authority, without its
fragment. -/
def resolve (base r : Reference) : Reference :=
  if r.scheme.isSome then
    { r with path := removeDotSegments r.path, fragment := none }
  else if r.authority.isSome then
    { r with scheme := base.scheme, path := removeDotSegments r.path, fragment := none }
  else if r.path = [] then
    { base with query := r.query.or base.query, fragment := none }
  else if r.path.head? = some '/' then
    { base with path := removeDotSegments r.path, query := r.query, fragment := none }
  else
    { base with
      path := removeDotSegments (directory base.path ++ r.path)
      query := r.query
      fragment := none }

/-- A path that has no segments to be removed. -/
def DotFree (path : Text) : Prop := ∀ segment ∈ path.splitOn '/', ¬ IsDot segment

instance (path : Text) : Decidable (DotFree path) :=
  inferInstanceAs (Decidable (∀ segment ∈ path.splitOn '/', _))

theorem splitScheme_cases (s : Text) :
    (∃ scheme rest, splitScheme s = (some scheme, rest) ∧ s = scheme ++ ':' :: rest ∧ scheme ≠ [] ∧
      ∀ c ∈ scheme, endsScheme c = false) ∨ splitScheme s = (none, s) := by
  unfold splitScheme
  dsimp only
  split
  next rest hrest =>
    split
    next => exact .inr rfl
    next hne =>
      refine .inl ⟨_, rest, rfl, ?_, hne, fun c hc => ?_⟩
      · rw [← hrest]
        exact List.takeWhile_append_dropWhile.symm
      · have hends := List.mem_takeWhile_imp hc
        simpa using hends
  next => exact .inr rfl

/-- The scheme of a text that begins with one. -/
theorem splitScheme_of {scheme : Text} (hne : scheme ≠ [])
    (hscheme : ∀ c ∈ scheme, endsScheme c = false) (rest : Text) :
    splitScheme (scheme ++ ':' :: rest) = (some scheme, rest) := by
  have hall : ∀ c ∈ scheme, (!endsScheme c) = true := fun c hc => by rw [hscheme c hc]; rfl
  have htake : (scheme ++ ':' :: rest).takeWhile (fun c => !endsScheme c) = scheme := by
    rw [List.takeWhile_append_of_pos hall, List.takeWhile_cons_of_neg (by decide), List.append_nil]
  have hdrop : (scheme ++ ':' :: rest).dropWhile (fun c => !endsScheme c) = ':' :: rest := by
    rw [List.dropWhile_append_of_pos hall, List.dropWhile_cons_of_neg (by decide)]
  unfold splitScheme
  rw [htake, hdrop]
  exact if_neg hne

theorem splitAuthority_cases (s : Text) :
    (∃ rest, s = '/' :: '/' :: rest ∧ splitAuthority s =
      (some (rest.takeWhile fun c => !endsAuthority c), rest.dropWhile fun c => !endsAuthority c)) ∨
      splitAuthority s = (none, s) ∧ ∀ rest, s ≠ '/' :: '/' :: rest := by
  unfold splitAuthority
  split
  next rest => exact .inl ⟨rest, rfl, rfl⟩
  next hnot => exact .inr ⟨rfl, hnot⟩

theorem splitAuthority_text (s : Text) :
    before ['/', '/'] (splitAuthority s).1 ++ (splitAuthority s).2 = s := by
  rcases splitAuthority_cases s with ⟨rest, rfl, heq⟩ | ⟨heq, _⟩
  · rw [heq]
    show '/' :: '/' :: (rest.takeWhile _ ++ rest.dropWhile _) = _
    rw [List.takeWhile_append_dropWhile]
  · rw [heq]
    rfl

theorem splitQuery_text {s : Text} (hs : ∀ c, s.head? = some c → endsPath c = true) :
    before ['?'] (splitQuery s).1 ++ before ['#'] (splitFragment (splitQuery s).2) = s := by
  have hfragment : ∀ {s : Text}, (∀ c, s.head? = some c → c = '#') →
      before ['#'] (splitFragment s) = s := by
    intro s hs
    cases s with
    | nil => rfl
    | cons c rest =>
      rw [hs c rfl]
      rfl
  unfold splitQuery
  split
  next rest =>
    rw [hfragment]
    · show '?' :: (rest.takeWhile _ ++ rest.dropWhile _) = _
      rw [List.takeWhile_append_dropWhile]
    · intro c hc
      have hnot := List.head?_dropWhile_not (· ≠ '#') rest
      rw [hc] at hnot
      simpa using hnot
  next hnot =>
    show [] ++ before ['#'] (splitFragment s) = s
    rw [List.nil_append, hfragment]
    intro c hc
    have hends := hs c hc
    unfold endsPath at hends
    rw [Bool.or_eq_true, beq_iff_eq, beq_iff_eq] at hends
    rcases hends with rfl | rfl
    · obtain ⟨rest, hrest⟩ := List.head?_eq_some_iff.mp hc
      exact absurd hrest (hnot rest)
    · rfl

/-- The parts make up the text. -/
theorem text_split (s : Text) : (split s).text = s := by
  have hpath : ∀ t : Text, t.takeWhile (fun c => !endsPath c) ++
      (before ['?'] (splitQuery (t.dropWhile fun c => !endsPath c)).1 ++
        before ['#'] (splitFragment (splitQuery (t.dropWhile fun c => !endsPath c)).2)) = t := by
    intro t
    rw [splitQuery_text, List.takeWhile_append_dropWhile]
    intro c hc
    have hnot := List.head?_dropWhile_not (fun c => !endsPath c) t
    rw [hc] at hnot
    simpa using hnot
  have hhierarchy : (split s).hierarchy = (splitScheme s).2 := by
    show before ['/', '/'] (splitAuthority (splitScheme s).2).1 ++ _ = _
    unfold Reference.tail
    exact (congrArg _ (hpath _)).trans (splitAuthority_text _)
  have hscheme : (split s).scheme = (splitScheme s).1 := rfl
  unfold Reference.text
  rw [hhierarchy, hscheme]
  rcases splitScheme_cases s with ⟨scheme, rest, heq, htext, _, _⟩ | heq
  · rw [heq]
    exact htext.symm
  · rw [heq]

theorem wellFormed_split (s : Text) : (split s).WellFormed where
  scheme := by
    intro scheme h
    rcases splitScheme_cases s with ⟨scheme', rest, heq, _, hne, hends⟩ | heq
    · have hsome : (splitScheme s).1 = some scheme := h
      rw [heq] at hsome
      cases hsome
      exact ⟨hne, hends⟩
    · have hsome : (splitScheme s).1 = some scheme := h
      rw [heq] at hsome
      cases hsome
  authority := by
    intro authority h c hc
    have hsome : (splitAuthority (splitScheme s).2).1 = some authority := h
    rcases splitAuthority_cases (splitScheme s).2 with ⟨rest, _, heq⟩ | ⟨heq, _⟩
    · rw [heq] at hsome
      cases hsome
      have hends := List.mem_takeWhile_imp hc
      simpa using hends
    · rw [heq] at hsome
      cases hsome
  path := by
    intro c hc
    have hends := List.mem_takeWhile_imp hc
    simpa using hends
  query := by
    intro query h hc
    have hsome : (splitQuery ((splitAuthority (splitScheme s).2).2.dropWhile
      fun c => !endsPath c)).1 = some query := h
    unfold splitQuery at hsome
    split at hsome
    next rest =>
      cases hsome
      have hne := List.mem_takeWhile_imp hc
      simp at hne
    next => cases hsome
  rooted := by
    intro h
    have hsome : (splitAuthority (splitScheme s).2).1.isSome := h
    show (splitAuthority (splitScheme s).2).2.takeWhile _ = [] ∨
      ((splitAuthority (splitScheme s).2).2.takeWhile _).head? = some '/'
    rcases splitAuthority_cases (splitScheme s).2 with ⟨rest, _, heq⟩ | ⟨heq, _⟩
    · rw [heq]
      dsimp only
      cases hrest : rest.dropWhile fun c => !endsAuthority c with
      | nil => exact .inl rfl
      | cons c tail =>
        have hends := List.head?_dropWhile_not (fun c => !endsAuthority c) rest
        rw [hrest] at hends
        have hc : c = '/' ∨ c = '?' ∨ c = '#' := by
          unfold endsAuthority at hends
          simp only [List.head?_cons, Bool.not_eq_false', Bool.or_eq_true, beq_iff_eq, or_assoc] at hends
          exact hends
        rcases hc with rfl | rfl | rfl
        · right
          rw [List.takeWhile_cons_of_pos (by decide)]
          rfl
        · exact .inl (List.takeWhile_cons_of_neg (by decide))
        · exact .inl (List.takeWhile_cons_of_neg (by decide))
    · rw [heq] at hsome
      cases hsome
  single := by
    intro h rest hpath
    have hnone : (splitAuthority (splitScheme s).2).1 = none := h
    have hpath' : (splitAuthority (splitScheme s).2).2.takeWhile (fun c => !endsPath c) =
        '/' :: '/' :: rest := hpath
    rcases splitAuthority_cases (splitScheme s).2 with ⟨rest', _, heq⟩ | ⟨heq, hnot⟩
    · rw [heq] at hnone
      cases hnone
    · rw [heq] at hpath'
      obtain ⟨tail, htail⟩ := List.takeWhile_prefix (l := (splitScheme s).2) fun c => !endsPath c
      rw [hpath'] at htail
      exact hnot (rest ++ tail) htail.symm

/-- What the segments of a path take of it, each with its slash. -/
def size (segments : List Text) : Nat := (segments.map fun segment => segment.length + 1).sum

theorem length_intercalate {segments : List Text} (h : segments ≠ []) :
    (List.intercalate ['/'] segments).length + 1 = size segments := by
  induction segments with
  | nil => exact absurd rfl h
  | cons segment segments ih =>
    cases segments with
    | nil => simp [size]
    | cons next segments =>
      have hrest := ih (List.cons_ne_nil next segments)
      have hcons : List.intercalate ['/'] (segment :: next :: segments) =
          segment ++ '/' :: List.intercalate ['/'] (next :: segments) := by
        simp [List.intercalate]
      have hsize : size (segment :: next :: segments) =
          segment.length + 1 + size (next :: segments) := rfl
      rw [hcons, hsize, ← hrest, List.length_append, List.length_cons]
      omega

theorem size_tail_le (out : List Text) : size out.tail ≤ size out := by
  cases out with
  | nil => exact Nat.le_refl 0
  | cons segment out => exact Nat.le_add_left _ _

theorem size_reverse (out : List Text) : size out.reverse = size out := by
  unfold size
  rw [List.map_reverse, List.sum_reverse]

theorem size_pushSegment (segment : Text) (last : Bool) (out : List Text) :
    size (pushSegment segment last out) ≤ size out + (segment.length + 1) ∧
      (IsDot segment → size (pushSegment segment last out) < size out + (segment.length + 1)) := by
  have htail := size_tail_le out
  have hcons : ∀ segment out, size (segment :: out) = segment.length + 1 + size out :=
    fun _ _ => rfl
  have hnil : ([] : Text).length = 0 := rfl
  unfold pushSegment
  by_cases hdot : IsDot segment
  · have hlength : 1 ≤ segment.length := by
      rcases hdot with rfl | rfl <;> decide
    rw [if_pos hdot]
    dsimp only
    have hout : size (if segment = ['.'] then out else out.tail) ≤ size out := by
      split <;> omega
    cases last with
    | true =>
      rw [if_pos rfl, hcons, hnil]
      omega
    | false =>
      rw [if_neg Bool.false_ne_true]
      omega
  · rw [if_neg hdot, hcons]
    exact ⟨by omega, fun h => absurd h hdot⟩

theorem size_mergeSegments (segments out : List Text) :
    size (mergeSegments segments out) ≤ size out + size segments ∧
      ((∃ segment ∈ segments, IsDot segment) →
        size (mergeSegments segments out) < size out + size segments) := by
  induction segments generalizing out with
  | nil =>
    rw [mergeSegments, size_reverse]
    refine ⟨Nat.le_add_right _ _, ?_⟩
    rintro ⟨_, h, _⟩
    cases h
  | cons segment segments ih =>
    have hsize : size (segment :: segments) = segment.length + 1 + size segments := rfl
    have hpush := size_pushSegment segment segments.isEmpty out
    have hrest := ih (pushSegment segment segments.isEmpty out)
    rw [mergeSegments, hsize]
    refine ⟨by omega, ?_⟩
    rintro ⟨dot, hmem, hdot⟩
    rcases List.mem_cons.mp hmem with rfl | hmem
    · have hlt := hpush.2 hdot
      omega
    · have hlt := hrest.2 ⟨dot, hmem, hdot⟩
      omega

theorem mergeSegments_of_dotFree {segments : List Text} (h : ∀ segment ∈ segments, ¬ IsDot segment)
    (out : List Text) : mergeSegments segments out = out.reverse ++ segments := by
  induction segments generalizing out with
  | nil => exact (List.append_nil _).symm
  | cons segment segments ih =>
    rw [mergeSegments, ih fun s hs => h s (List.mem_cons_of_mem segment hs)]
    unfold pushSegment
    rw [if_neg (h segment (List.mem_cons_self ..)), List.reverse_cons, List.append_assoc]
    rfl

/-- A segment that is left was there, or is the empty one behind a last dot. -/
theorem mem_mergeSegments {segments out : List Text} {segment : Text}
    (h : segment ∈ mergeSegments segments out) :
    segment ∈ out ∨ segment ∈ segments ∨ segment = [] := by
  induction segments generalizing out with
  | nil => exact .inl (List.mem_reverse.mp h)
  | cons first segments ih =>
    rcases ih h with hout | hrest | hnil
    · unfold pushSegment at hout
      split at hout
      next =>
        dsimp only at hout
        have hsub : ∀ s ∈ (if first = ['.'] then out else out.tail), s ∈ out := by
          intro s hs
          split at hs
          next => exact hs
          next => exact List.mem_of_mem_tail hs
        split at hout
        next =>
          rcases List.mem_cons.mp hout with rfl | hout
          · exact .inr (.inr rfl)
          · exact .inl (hsub segment hout)
        next => exact .inl (hsub segment hout)
      next =>
        rcases List.mem_cons.mp hout with rfl | hout
        · exact .inr (.inl (List.mem_cons_self ..))
        · exact .inl hout
    · exact .inr (.inl (List.mem_cons_of_mem first hrest))
    · exact .inr (.inr hnil)

theorem mergeSegments_ne_nil {segments : List Text} (h : segments ≠ []) (out : List Text) :
    mergeSegments segments out ≠ [] := by
  induction segments generalizing out with
  | nil => exact absurd rfl h
  | cons segment segments ih =>
    rw [mergeSegments]
    by_cases hlast : segments = []
    · rw [hlast]
      unfold mergeSegments pushSegment
      rw [Ne, List.reverse_eq_nil_iff]
      split
      next => exact List.cons_ne_nil _ _
      next => exact List.cons_ne_nil _ _
    · exact ih hlast _

theorem dotFree_cons_slash (path : Text) : DotFree ('/' :: path) ↔ DotFree path := by
  have hsplit : ('/' :: path).splitOn '/' = [] :: path.splitOn '/' :=
    List.splitOn_append_cons_self_of_not_mem (List.not_mem_nil (a := '/')) path
  have hnil : ¬ IsDot [] := by decide
  unfold DotFree
  rw [hsplit, List.forall_mem_cons]
  exact and_iff_right hnil

theorem length_removeDotSegments (path : Text) :
    (removeDotSegments ('/' :: path)).length = size (mergeSegments (path.splitOn '/') []) := by
  rw [← length_intercalate (mergeSegments_ne_nil (List.splitOn_ne_nil _ _) [])]
  rfl

theorem size_splitOn (path : Text) : size (path.splitOn '/') = path.length + 1 := by
  rw [← length_intercalate (List.splitOn_ne_nil _ _), List.intercalate_splitOn]

theorem length_removeDotSegments_le (path : Text) :
    (removeDotSegments path).length ≤ path.length := by
  unfold removeDotSegments
  split
  next path =>
    have hsize := (size_mergeSegments (path.splitOn '/') []).1
    rw [size_splitOn, ← length_removeDotSegments] at hsize
    exact hsize.trans (Nat.le_of_eq (Nat.zero_add _))
  next => exact Nat.le_refl _

/-- A path stays as it is iff it has no dot segments. -/
theorem removeDotSegments_eq_iff {path : Text} (h : path = [] ∨ path.head? = some '/') :
    removeDotSegments path = path ↔ DotFree path := by
  rcases h with rfl | h
  · exact iff_of_true rfl (by decide)
  · obtain ⟨path, rfl⟩ := List.head?_eq_some_iff.mp h
    rw [dotFree_cons_slash]
    constructor
    · intro heq segment hmem hdot
      have hlt := (size_mergeSegments (path.splitOn '/') []).2 ⟨segment, hmem, hdot⟩
      rw [← length_removeDotSegments, heq, size_splitOn] at hlt
      have hnil : size [] = 0 := rfl
      rw [List.length_cons] at hlt
      omega
    · intro hfree
      show '/' :: List.intercalate ['/'] (mergeSegments (path.splitOn '/') []) = _
      rw [mergeSegments_of_dotFree hfree, List.reverse_nil, List.nil_append, List.intercalate_splitOn]

theorem head_removeDotSegments {path : Text} (h : path.head? = some '/') :
    (removeDotSegments path).head? = some '/' := by
  obtain ⟨path, rfl⟩ := List.head?_eq_some_iff.mp h
  rfl

theorem notMem_removeDotSegments {c : Char} (hc : c ≠ '/') {path : Text} (h : c ∉ path) :
    c ∉ removeDotSegments path := by
  unfold removeDotSegments
  split
  next path =>
    intro hmem
    rcases List.mem_cons.mp hmem with rfl | hmem
    · exact hc rfl
    · obtain ⟨segment, hsegment, hmem⟩ := (mem_intercalate hc).mp hmem
      rcases mem_mergeSegments hsegment with hnil | hsplit | rfl
      · cases hnil
      · exact h (List.mem_cons_of_mem '/' (mem_of_mem_splitOn hsplit hmem))
      · cases hmem
  next => exact h

theorem directory_eq {path before after : Text} (h : path = before ++ '/' :: after)
    (hafter : '/' ∉ after) : directory path = before ++ ['/'] := by
  have hcut : cutAt '/' path.reverse = some (after.reverse, before.reverse) := by
    apply cutAt_eq_some_iff.mpr
    rw [h]
    simpa using hafter
  unfold directory
  rw [hcut]
  dsimp only
  rw [List.reverse_reverse]

/-- A text is up to its last slash and the rest, or has no slash. -/
theorem last_slash (path : Text) :
    (∃ before after, path = before ++ '/' :: after ∧ '/' ∉ after) ∨ '/' ∉ path := by
  cases hcut : cutAt '/' path.reverse with
  | none =>
    right
    have hnot := cutAt_eq_none_iff.mp hcut
    rwa [List.mem_reverse] at hnot
  | some p =>
    obtain ⟨htext, hnot⟩ := cutAt_eq_some_iff.mp hcut
    refine .inl ⟨p.2.reverse, p.1.reverse, ?_, by rwa [List.mem_reverse]⟩
    have hrev := congrArg List.reverse htext
    simpa using hrev

/-- What has no slash is not in the directory. -/
theorem directory_append {path tail : Text} (h : path.head? = some '/') (htail : '/' ∉ tail) :
    directory (path ++ tail) = directory path := by
  rcases last_slash path with ⟨before, after, hpath, hafter⟩ | hnot
  · have happend : path ++ tail = before ++ '/' :: (after ++ tail) := by
      rw [hpath, List.append_assoc]
      rfl
    have hboth : '/' ∉ after ++ tail := by
      rw [List.mem_append]
      exact fun hmem => hmem.elim hafter htail
    rw [directory_eq happend hboth, directory_eq hpath hafter]
  · exact absurd (List.mem_of_head? h) hnot

/-- A slash in what stands behind a path makes all of the path a directory. -/
theorem directory_append_slash (path : Text) {tail : Text} (htail : '/' ∈ tail) :
    ∃ inner outer, tail = inner ++ '/' :: outer ∧
      directory (path ++ tail) = path ++ inner ++ ['/'] := by
  rcases last_slash tail with ⟨inner, outer, rfl, houter⟩ | hnot
  · refine ⟨inner, outer, rfl, directory_eq ?_ houter⟩
    rw [List.append_assoc]
  · exact absurd htail hnot

/-- The directory of a path that begins with a slash. -/
theorem directory_cases {path : Text} (h : path.head? = some '/') :
    ∃ after, path = directory path ++ after ∧ '/' ∉ after := by
  rcases last_slash path with ⟨before, after, hpath, hafter⟩ | hnot
  · refine ⟨after, ?_, hafter⟩
    rw [directory_eq hpath hafter, List.append_assoc]
    exact hpath
  · exact absurd (List.mem_of_head? h) hnot

theorem directory_ends (path : Text) : (directory path).getLast? = some '/' := by
  unfold directory
  split
  next => exact List.getLast?_concat
  next => rfl

theorem directory_eq_self_iff {path : Text} (h : path.head? = some '/') :
    directory path = path ↔ path.getLast? = some '/' := by
  obtain ⟨after, hpath, hafter⟩ := directory_cases h
  constructor
  · intro heq
    rw [← heq]
    exact directory_ends path
  · intro hlast
    have hnil : after = [] := by
      by_contra hne
      rw [hpath, List.getLast?_append_of_ne_nil _ hne] at hlast
      exact hafter (List.mem_of_getLast? hlast)
    rw [hnil, List.append_nil] at hpath
    exact hpath.symm

theorem head_directory {path : Text} (h : path = [] ∨ path.head? = some '/') :
    (directory path).head? = some '/' := by
  rcases h with rfl | h
  · rfl
  · obtain ⟨after, hpath, _⟩ := directory_cases h
    cases hdir : directory path with
    | nil =>
      have hends := directory_ends path
      rw [hdir] at hends
      cases hends
    | cons c rest =>
      rw [hpath, hdir] at h
      exact h

end Kernway.Uri
