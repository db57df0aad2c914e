import Kernway.MeiliGrammar
import Kernway.MeiliQuery

namespace Kernway

namespace MeiliGrammar

/-- A text that is one word of the grammar. -/
structure IsWord (g : MeiliGrammar) (x : Text) : Prop where
  nonempty : x ≠ []
  chars : ∀ c ∈ x, g.wordChar c = true
  free : g.reserved x = false

/-- A text in which no backslash is lost, and none stands before a quote or at the end. -/
def Quotable (keeps : Bool) : Text → Prop
  | [] => True
  | '\\' :: [] => False
  | '\\' :: c :: v => keeps = true ∧ c ≠ '"' ∧ Quotable keeps v
  | _ :: v => Quotable keeps v

/-- A value that is read as it was before it was written by `quote`. -/
def Faithful (g : MeiliGrammar) (v : Text) : Prop :=
  if (parseF64 v).isSome then g.IsWord v else Quotable g.keeps v

/-- What stands behind a value in a filter. -/
inductive Follows : Text → Prop
  | nil : Follows []
  | close {c : Char} (r : Text) (h : c = ')' ∨ c = ',' ∨ c = ']') : Follows (c :: r)
  | connective {c : Char} (r : Text) (h : c.isAlpha) : Follows (' ' :: c :: r)

variable {g : MeiliGrammar}

/-- Behind a word stands no character of a word. -/
def Bounded (g : MeiliGrammar) (rest : Text) : Prop := ∀ c ∈ rest.head?, g.wordChar c = false

theorem bounded_space (g : MeiliGrammar) (rest : Text) : g.Bounded (' ' :: rest) := by
  intro c hc
  cases Option.mem_some_iff.mp hc
  exact g.delimiter _ (by decide)

theorem Follows.bounded {rest : Text} (h : Follows rest) : g.Bounded rest := by
  cases h with
  | nil => nofun
  | close r h =>
    intro c hc
    cases Option.mem_some_iff.mp hc
    refine g.delimiter _ ?_
    rcases h with rfl | rfl | rfl <;> decide
  | connective r h => exact bounded_space g _

theorem takeWhile_word {x rest : Text} (hx : ∀ c ∈ x, g.wordChar c = true) (h : g.Bounded rest) :
    (x ++ rest).takeWhile g.wordChar = x ∧ (x ++ rest).dropWhile g.wordChar = rest := by
  rw [List.takeWhile_append_of_pos hx, List.dropWhile_append_of_pos hx]
  cases rest with
  | nil => simp
  | cons c rest =>
    have hc : g.wordChar c = false := h c rfl
    simp [hc]

theorem wordChar_not_space {c : Char} (h : g.wordChar c = true) : isSpace c = false := by
  have hne : ∀ d ∈ [' ', '\t', '\r', '\n'], c ≠ d := by
    rintro d hd rfl
    have := g.delimiter c (List.mem_append_left (['(', ')', '[', ']', ',', '=', '!', '<', '>', '"',
      '\'', '\\']) hd)
    simp [h] at this
  simp only [List.mem_cons, List.not_mem_nil, or_false, forall_eq_or_imp, forall_eq] at hne
  simp [isSpace, hne]

theorem IsWord.ne_nil_head {x : Text} (h : g.IsWord x) :
    ∃ c v, x = c :: v ∧ g.wordChar c = true := by
  obtain ⟨c, v, rfl⟩ := List.exists_cons_of_ne_nil h.nonempty
  exact ⟨c, v, rfl, h.chars c (List.mem_cons_self ..)⟩

theorem skipWs_word {x : Text} (h : g.IsWord x) (rest : Text) : skipWs (x ++ rest) = x ++ rest := by
  obtain ⟨c, v, rfl, hc⟩ := h.ne_nil_head
  rw [skipWs, List.cons_append, List.dropWhile_cons_of_neg]
  simp [wordChar_not_space hc]

theorem skipWs_space (s : Text) : skipWs (' ' :: s) = skipWs s := rfl

theorem readValue_space (s : Text) : g.readValue (' ' :: s) = g.readValue s := rfl

theorem keyword_space (w s : Text) : g.keyword w (' ' :: s) = g.keyword w s := rfl

theorem symbol_space (c : Char) (s : Text) : symbol c (' ' :: s) = symbol c s := rfl

/-- Text that starts with none of the quotes is read as a word. -/
theorem readValue_eq_readWord {s : Text} (h : ∀ c ∈ (skipWs s).head?, c ≠ '"' ∧ c ≠ '\'') :
    g.readValue s = g.readWord (skipWs s) := by
  unfold readValue
  split
  next rest heq => exact absurd rfl (h '"' (by rw [heq]; rfl)).1
  next rest heq => exact absurd rfl (h '\'' (by rw [heq]; rfl)).2
  next => rfl

theorem readValue_word {x : Text} (h : g.IsWord x) {rest : Text} (hrest : g.Bounded rest) :
    g.readValue (x ++ rest) = some (x, rest) := by
  obtain ⟨c, v, rfl, hc⟩ := h.ne_nil_head
  have hquote : ∀ d ∈ ((c :: v) ++ rest).head?, d ≠ '"' ∧ d ≠ '\'' := by
    intro d hd
    cases Option.mem_some_iff.mp hd
    constructor <;> rintro rfl
    · simp [g.delimiter '"' (by decide)] at hc
    · simp [g.delimiter '\'' (by decide)] at hc
  rw [readValue_eq_readWord (by rwa [skipWs_word h]), skipWs_word h, readWord,
    (takeWhile_word h.chars hrest).1, (takeWhile_word h.chars hrest).2]
  rw [if_neg]
  simp [h.free]

theorem readWord_isWord {s x rest : Text} (h : g.readWord s = some (x, rest)) : g.IsWord x := by
  unfold readWord at h
  split at h
  next => cases h
  next hnot =>
    obtain ⟨rfl, rfl⟩ := Prod.mk.inj (Option.some.inj h)
    rw [not_or, Bool.not_eq_true] at hnot
    exact ⟨hnot.1, fun c hc => List.mem_takeWhile_imp hc, hnot.2⟩

section

variable {keeps : Bool} {q c : Char} {rest : Text}

theorem readQuoted_backslash : readQuoted keeps q ('\\' :: c :: rest) =
    (readQuoted keeps q rest).map fun (v, rest) => (unescape keeps q c ++ v, rest) := rfl

theorem readQuoted_other (hc : c ≠ '\\') : readQuoted keeps q (c :: rest) =
    if c = q then some ([], rest)
    else (readQuoted keeps q rest).map fun (v, rest) => (c :: v, rest) := by
  rw [readQuoted.eq_def]
  split
  next heq => cases heq
  next heq =>
    obtain ⟨rfl, rfl⟩ := List.cons.inj heq
    exact absurd rfl hc
  next heq =>
    obtain ⟨rfl, rfl⟩ := List.cons.inj heq
    exact absurd rfl hc
  next heq =>
    obtain ⟨rfl, rfl⟩ := List.cons.inj heq
    rfl

/-- The last case of the recursions that look for a backslash. -/
theorem ne_backslash {v : Text} (hlast : c = '\\' → v = [] → False)
    (hpair : ∀ d v', c = '\\' → v = d :: v' → False) : c ≠ '\\' := by
  intro hc
  cases v with
  | nil => exact hlast hc rfl
  | cons d v => exact hpair d v hc rfl

theorem quotable_other {v : Text} (hc : c ≠ '\\') : Quotable keeps (c :: v) = Quotable keeps v :=
  Quotable.eq_4 keeps c v (fun h _ => hc h) fun _ _ h _ => hc h

theorem escapeQuotes_cons (c : Char) (v : Text) :
    escapeQuotes (c :: v) = (if c = '"' then ['\\', '"'] else [c]) ++ escapeQuotes v :=
  List.flatMap_cons

/-- A quotable text is read back from between its quotes. -/
theorem readQuoted_escapeQuotes {v : Text} (h : Quotable keeps v) (rest : Text) :
    readQuoted keeps '"' (escapeQuotes v ++ '"' :: rest) = some (v, rest) := by
  induction v using Quotable.induct with
  | case1 => rfl
  | case2 => exact h.elim
  | case3 c v ih =>
    obtain ⟨hkeeps, hc, hv⟩ := h
    rw [escapeQuotes_cons, if_neg (by decide), escapeQuotes_cons, if_neg hc]
    show readQuoted keeps '"' ('\\' :: c :: (escapeQuotes v ++ '"' :: rest)) = _
    rw [readQuoted_backslash, ih hv]
    simp [unescape, hc, hkeeps]
  | case4 c v hlast hpair ih =>
    have hc := ne_backslash hlast hpair
    rw [quotable_other hc] at h
    rw [escapeQuotes_cons]
    by_cases hq : c = '"'
    · rw [if_pos hq, hq]
      show readQuoted keeps '"' ('\\' :: '"' :: (escapeQuotes v ++ '"' :: rest)) = _
      rw [readQuoted_backslash, ih h]
      rfl
    · rw [if_neg hq]
      show readQuoted keeps '"' (c :: (escapeQuotes v ++ '"' :: rest)) = _
      rw [readQuoted_other hc, if_neg hq, ih h]
      rfl

/-- The first characters of a text that are backslashes, as many as there are. -/
def slashes (v : Text) : Nat := (v.takeWhile (· = '\\')).length

/-- Where an escape is replaced by its character, two backslashes are read as one. -/
theorem slashes_readQuoted {s v r : Text} (h : readQuoted false '"' s = some (v, r)) :
    2 * slashes v ≤ slashes s := by
  induction s using readQuoted.induct '"' generalizing v with
  | case1 => cases h
  | case2 => cases h
  | case3 c rest ih =>
    rw [readQuoted_backslash] at h
    obtain ⟨⟨v', r'⟩, hread, heq⟩ := Option.map_eq_some_iff.mp h
    obtain ⟨rfl, rfl⟩ := Prod.mk.inj heq
    have hrest := ih hread
    by_cases hc : c = '\\'
    · subst hc
      simp only [slashes, unescape] at hrest ⊢
      simp
      omega
    · have hempty : slashes (unescape false '"' c ++ v') = 0 := by
        by_cases hq : c = '"'
        · simp [slashes, unescape, hq]
        · simp [slashes, unescape, hq, hc]
      omega
  | case4 rest hlast hpair =>
    rw [readQuoted_other (by decide), if_pos rfl] at h
    cases h
    exact Nat.zero_le _
  | case5 c rest hlast hpair hq ih =>
    have hc := ne_backslash hlast hpair
    rw [readQuoted_other hc, if_neg hq] at h
    obtain ⟨⟨v', r'⟩, -, heq⟩ := Option.map_eq_some_iff.mp h
    obtain ⟨rfl, rfl⟩ := Prod.mk.inj heq
    simp [slashes, hc]

theorem slashes_escapeQuotes (v rest : Text) :
    slashes (escapeQuotes v ++ '"' :: rest) ≤ slashes v + 1 := by
  induction v with
  | nil => simp [slashes, escapeQuotes]
  | cons c v ih =>
    rw [escapeQuotes_cons]
    by_cases hc : c = '"'
    · rw [if_pos hc]
      simp [slashes]
    · rw [if_neg hc]
      show slashes (c :: (escapeQuotes v ++ '"' :: rest)) ≤ _
      by_cases hb : c = '\\'
      · simp only [slashes, hb, List.takeWhile_cons, decide_true, if_true, List.length_cons] at ih ⊢
        omega
      · simp [slashes, hb]

/-- A text that is read back from between its quotes is quotable. -/
theorem quotable_of_readQuoted {v r : Text}
    (h : readQuoted keeps '"' (escapeQuotes v ++ '"' :: rest) = some (v, r)) :
    Quotable keeps v := by
  induction v using Quotable.induct generalizing r with
  | case1 => trivial
  | case2 =>
    have hread : readQuoted keeps '"' ('\\' :: '"' :: rest) = some (['\\'], r) := h
    rw [readQuoted_backslash] at hread
    obtain ⟨⟨v', r'⟩, -, heq⟩ := Option.map_eq_some_iff.mp hread
    cases (Prod.mk.inj heq).1
  | case3 c u ih =>
    rw [escapeQuotes_cons, if_neg (by decide), escapeQuotes_cons] at h
    by_cases hc : c = '"'
    · rw [if_pos hc] at h
      have hread : readQuoted keeps '"' ('\\' :: '\\' :: '"' :: (escapeQuotes u ++ '"' :: rest)) =
        some ('\\' :: c :: u, r) := h
      rw [readQuoted_backslash, readQuoted_other (by decide), if_pos rfl] at hread
      have heq := (Prod.mk.inj (Option.some.inj hread)).1
      cases keeps <;> simp [unescape, hc] at heq
    · rw [if_neg hc] at h
      have hread : readQuoted keeps '"' ('\\' :: c :: (escapeQuotes u ++ '"' :: rest)) =
        some ('\\' :: c :: u, r) := h
      rw [readQuoted_backslash] at hread
      obtain ⟨⟨v', r'⟩, hrest, heq⟩ := Option.map_eq_some_iff.mp hread
      cases keeps with
      | true =>
        simp only [unescape, hc, if_true, if_false, List.cons_append, List.nil_append,
          Prod.mk.injEq, List.cons.injEq, true_and] at heq
        obtain ⟨rfl, rfl⟩ := heq
        exact ⟨rfl, hc, ih hrest⟩
      | false =>
        -- the backslash is gone, so another one would have to follow, and so on
        simp only [unescape, hc, if_false, Bool.false_eq_true, List.cons_append, List.nil_append,
          Prod.mk.injEq, List.cons.injEq] at heq
        obtain ⟨⟨rfl, rfl⟩, rfl⟩ := heq
        have hcount := slashes_readQuoted hrest
        have hbound := slashes_escapeQuotes u rest
        have hone : slashes ('\\' :: u) = slashes u + 1 := by simp [slashes]
        omega
  | case4 c v hlast hpair ih =>
    have hc := ne_backslash hlast hpair
    rw [quotable_other hc]
    rw [escapeQuotes_cons] at h
    by_cases hq : c = '"'
    · rw [if_pos hq] at h
      have hread : readQuoted keeps '"' ('\\' :: '"' :: (escapeQuotes v ++ '"' :: rest)) =
        some (c :: v, r) := h
      rw [readQuoted_backslash] at hread
      obtain ⟨⟨v', r'⟩, hrest, heq⟩ := Option.map_eq_some_iff.mp hread
      obtain ⟨hv, rfl⟩ := Prod.mk.inj heq
      obtain ⟨-, rfl⟩ := List.cons.inj hv
      exact ih hrest
    · rw [if_neg hq] at h
      have hread : readQuoted keeps '"' (c :: (escapeQuotes v ++ '"' :: rest)) =
        some (c :: v, r) := h
      rw [readQuoted_other hc, if_neg hq] at hread
      obtain ⟨⟨v', r'⟩, hrest, heq⟩ := Option.map_eq_some_iff.mp hread
      obtain ⟨hv, rfl⟩ := Prod.mk.inj heq
      obtain ⟨-, rfl⟩ := List.cons.inj hv
      exact ih hrest

/-- The characters that the quote, the backslash and spaces are written with. -/
def isMark (q c : Char) : Bool := c = q || c = '\\' || isSpace c

/-- How far a text has nothing but marks. -/
def marks (q : Char) (v : Text) : Text := v.takeWhile (isMark q)

theorem marks_cons_of_pos {v : Text} (h : isMark q c = true) : marks q (c :: v) = c :: marks q v :=
  List.takeWhile_cons_of_pos h

theorem marks_cons_of_neg {v : Text} (h : isMark q c = false) : marks q (c :: v) = [] :=
  List.takeWhile_cons_of_neg (by simp [h])

/-- Marks are read from no fewer marks, and each quote among them from two. -/
theorem marks_readQuoted (hq : q ≠ '\\') {s v r : Text}
    (h : readQuoted keeps q s = some (v, r)) :
    (marks q v).length + (marks q v).count q ≤ (marks q s).length := by
  have hslash : isMark q '\\' = true := by simp [isMark]
  have hquote : isMark q q = true := by simp [isMark]
  induction s using readQuoted.induct q generalizing v with
  | case1 => cases h
  | case2 => cases h
  | case3 c rest ih =>
    rw [readQuoted_backslash] at h
    obtain ⟨⟨v', r'⟩, hread, heq⟩ := Option.map_eq_some_iff.mp h
    obtain ⟨rfl, rfl⟩ := Prod.mk.inj heq
    have hrest := ih hread
    rw [marks_cons_of_pos hslash]
    by_cases hc : c = q
    · subst hc
      show (marks c (unescape keeps c c ++ v')).length + _ ≤ _
      rw [unescape, if_pos rfl, List.singleton_append, marks_cons_of_pos hquote,
        marks_cons_of_pos hquote]
      simp only [List.length_cons, List.count_cons_self]
      omega
    · cases hmark : isMark q c with
      | true =>
        rw [marks_cons_of_pos hmark]
        cases keeps with
        | true =>
          show (marks q (unescape true q c ++ v')).length + _ ≤ _
          rw [unescape, if_neg hc, if_pos rfl]
          show (marks q ('\\' :: c :: v')).length + (marks q ('\\' :: c :: v')).count q ≤ _
          rw [marks_cons_of_pos hslash, marks_cons_of_pos hmark]
          simp only [List.length_cons, List.count_cons_of_ne (Ne.symm hq),
            List.count_cons_of_ne hc]
          omega
        | false =>
          show (marks q (unescape false q c ++ v')).length + _ ≤ _
          rw [unescape, if_neg hc, if_neg (by simp)]
          show (marks q (c :: v')).length + (marks q (c :: v')).count q ≤ _
          rw [marks_cons_of_pos hmark]
          simp only [List.length_cons, List.count_cons_of_ne hc]
          omega
      | false =>
        rw [marks_cons_of_neg hmark]
        cases keeps with
        | true =>
          show (marks q (unescape true q c ++ v')).length + _ ≤ _
          rw [unescape, if_neg hc, if_pos rfl]
          show (marks q ('\\' :: c :: v')).length + (marks q ('\\' :: c :: v')).count q ≤ _
          rw [marks_cons_of_pos hslash, marks_cons_of_neg hmark]
          simp [hq.symm]
        | false =>
          show (marks q (unescape false q c ++ v')).length + _ ≤ _
          rw [unescape, if_neg hc, if_neg (by simp)]
          show (marks q (c :: v')).length + (marks q (c :: v')).count q ≤ _
          rw [marks_cons_of_neg hmark]
          simp
  | case4 rest hlast hpair =>
    rw [readQuoted_other hq, if_pos rfl] at h
    cases h
    exact Nat.zero_le _
  | case5 c rest hlast hpair hc ih =>
    have hb := ne_backslash hlast hpair
    rw [readQuoted_other hb, if_neg hc] at h
    obtain ⟨⟨v', r'⟩, hread, heq⟩ := Option.map_eq_some_iff.mp h
    obtain ⟨rfl, rfl⟩ := Prod.mk.inj heq
    have hrest := ih hread
    cases hmark : isMark q c with
    | true =>
      rw [marks_cons_of_pos hmark, marks_cons_of_pos hmark]
      simp only [List.length_cons, List.count_cons_of_ne hc]
      omega
    | false =>
      rw [marks_cons_of_neg hmark, marks_cons_of_neg hmark]
      simp

theorem marks_append_length (v w : Text) :
    (marks q (v ++ w)).length ≤ (marks q v).length + (marks q w).length := by
  induction v with
  | nil => simp [marks]
  | cons c v ih =>
    rw [List.cons_append]
    cases hmark : isMark q c with
    | true =>
      rw [marks_cons_of_pos hmark, marks_cons_of_pos hmark, List.length_cons, List.length_cons]
      omega
    | false =>
      rw [marks_cons_of_neg hmark]
      exact Nat.zero_le _

/-- Behind a value stands at most one mark, a space. -/
theorem Follows.marks_length {rest : Text} (h : Follows rest) (hq : q = '"' ∨ q = '\'') :
    (marks q rest).length ≤ 1 := by
  cases h with
  | nil => simp [marks]
  | close r h =>
    rw [marks_cons_of_neg]
    · exact Nat.zero_le _
    · rcases hq with rfl | rfl <;> rcases h with rfl | rfl | rfl <;> decide
  | @connective c r h =>
    have hspace : isMark q ' ' = true := by simp [isMark, isSpace]
    have hletter : isMark q c = false := by
      have hne : ∀ d : Char, d.isAlpha = false → c ≠ d := by
        rintro d hd rfl
        simp [h] at hd
      have hcq : c ≠ q := by
        rcases hq with rfl | rfl
        · exact hne _ (by decide)
        · exact hne _ (by decide)
      simp [isMark, isSpace, hcq, hne '\\' (by decide), hne ' ' (by decide), hne '\t' (by decide),
        hne '\r' (by decide), hne '\n' (by decide)]
    rw [marks_cons_of_pos hspace, marks_cons_of_neg hletter]
    exact Nat.le_refl 1

theorem skipWs_follows {rest : Text} (h : Follows rest) :
    ∀ c ∈ (skipWs rest).head?, c ≠ '"' ∧ c ≠ '\'' := by
  cases h with
  | nil => nofun
  | close r h =>
    rcases h with rfl | rfl | rfl <;>
      · intro c hc
        cases Option.mem_some_iff.mp hc
        decide
  | @connective c r h =>
    have hne : ∀ d : Char, d.isAlpha = false → c ≠ d := by
      rintro d hd rfl
      simp [h] at hd
    have hspace : isSpace c = false := by
      simp [isSpace, hne ' ' (by decide), hne '\t' (by decide), hne '\r' (by decide),
        hne '\n' (by decide)]
    intro d hd
    rw [skipWs_space, skipWs, List.dropWhile_cons_of_neg (by simp [hspace])] at hd
    cases Option.mem_some_iff.mp hd
    exact ⟨hne _ (by decide), hne _ (by decide)⟩

/-- A quote behind some text stands in the text. -/
theorem skipWs_append_quote {x rest t : Text} (hrest : Follows rest) (hq : q = '"' ∨ q = '\'')
    (h : skipWs (x ++ rest) = q :: t) :
    ∃ spaces x', x = spaces ++ q :: x' ∧ t = x' ++ rest ∧ ∀ c ∈ spaces, isSpace c = true := by
  have hspaces : ∀ c ∈ x.takeWhile isSpace, isSpace c = true := fun c hc =>
    List.mem_takeWhile_imp hc
  have hx : x = x.takeWhile isSpace ++ x.dropWhile isSpace := List.takeWhile_append_dropWhile.symm
  rw [hx, List.append_assoc, skipWs, List.dropWhile_append_of_pos hspaces] at h
  cases hrestx : x.dropWhile isSpace with
  | nil =>
    rw [hrestx, List.nil_append] at h
    have hhead := skipWs_follows hrest q (by rw [skipWs, h]; rfl)
    rcases hq with rfl | rfl
    · exact absurd rfl hhead.1
    · exact absurd rfl hhead.2
  | cons d x' =>
    have hd : isSpace d = false := by
      have hne : x.dropWhile isSpace ≠ [] := by simp [hrestx]
      have := List.head_dropWhile_not isSpace hne
      simpa [hrestx] using this
    rw [hrestx, List.cons_append, List.dropWhile_cons_of_neg (by simp [hd])] at h
    obtain ⟨rfl, rfl⟩ := List.cons.inj h
    exact ⟨x.takeWhile isSpace, x', by rw [← hrestx]; exact hx, rfl, hspaces⟩

/-- A string does not stand for itself with its quote. -/
theorem readQuoted_ne (hq : q = '"' ∨ q = '\'') {spaces x rest r : Text}
    (hspaces : ∀ c ∈ spaces, isSpace c = true) (hrest : Follows rest) :
    readQuoted keeps q (x ++ rest) ≠ some (spaces ++ q :: x, r) := by
  intro h
  have hslash : q ≠ '\\' := by rcases hq with rfl | rfl <;> decide
  have hmarks := marks_readQuoted hslash h
  have hself : marks q (spaces ++ q :: x) = spaces ++ q :: marks q x := by
    rw [marks, List.takeWhile_append_of_pos]
    · rw [← marks, marks_cons_of_pos (by simp [isMark])]
    · intro c hc
      simp [isMark, hspaces c hc]
  have hcount : 0 < (spaces ++ q :: marks q x).count q :=
    List.count_pos_iff.mpr (by simp)
  have happend := marks_append_length (q := q) x rest
  have hone := hrest.marks_length hq
  rw [hself] at hmarks
  simp only [List.length_append, List.length_cons] at hmarks
  omega

/-- What is written without quotes and read back as it is is a word. -/
theorem isWord_of_readValue {x rest r : Text} (hrest : Follows rest)
    (h : g.readValue (x ++ rest) = some (x, r)) : g.IsWord x := by
  unfold readValue at h
  split at h
  next t heq =>
    obtain ⟨spaces, x', rfl, rfl, hspaces⟩ := skipWs_append_quote hrest (.inl rfl) heq
    exact absurd h (readQuoted_ne (.inl rfl) hspaces hrest)
  next t heq =>
    obtain ⟨spaces, x', rfl, rfl, hspaces⟩ := skipWs_append_quote hrest (.inr rfl) heq
    exact absurd h (readQuoted_ne (.inr rfl) hspaces hrest)
  next => exact readWord_isWord h

end

open MeilisearchQueryBuilder (quote)

/-- A faithful value is read back from what `quote` writes. -/
theorem readValue_quote {v rest : Text} (hv : g.Faithful v) (hrest : g.Bounded rest) :
    g.readValue (quote v ++ rest) = some (v, rest) := by
  unfold Faithful at hv
  unfold quote
  split
  next hnum =>
    rw [if_pos hnum] at hv
    exact readValue_word hv hrest
  next hnum =>
    rw [if_neg hnum] at hv
    show readQuoted g.keeps '"' (escapeQuotes v ++ ['"'] ++ rest) = some (v, rest)
    rw [List.append_assoc]
    exact readQuoted_escapeQuotes hv rest

theorem faithful_of_readValue {v rest r : Text} (hrest : Follows rest)
    (h : g.readValue (quote v ++ rest) = some (v, r)) : g.Faithful v := by
  unfold Faithful
  unfold quote at h
  split
  next hnum =>
    rw [if_pos hnum] at h
    exact isWord_of_readValue hrest h
  next hnum =>
    rw [if_neg hnum] at h
    have hread : readQuoted g.keeps '"' (escapeQuotes v ++ ['"'] ++ rest) = some (v, r) := h
    rw [List.append_assoc] at hread
    exact quotable_of_readQuoted hread

/-- What a keyword is compared with where a word stands. -/
theorem keyword_word {w x rest : Text} (hx : ∀ c ∈ x, g.wordChar c = true) (hne : x ≠ [])
    (hrest : g.Bounded rest) : g.keyword w (x ++ rest) = if x = w then some rest else none := by
  obtain ⟨c, v, rfl⟩ := List.exists_cons_of_ne_nil hne
  have hskip : skipWs ((c :: v) ++ rest) = (c :: v) ++ rest := by
    rw [skipWs, List.cons_append, List.dropWhile_cons_of_neg]
    simp [wordChar_not_space (hx c (List.mem_cons_self ..))]
  rw [keyword, hskip, (takeWhile_word hx hrest).1, (takeWhile_word hx hrest).2]

theorem letters_word {w : Text} (h : w.all Char.isAlpha = true) : ∀ c ∈ w, g.wordChar c = true :=
  fun c hc => g.letter c (List.all_eq_true.mp h c hc)

/-- A keyword is read where it is written. -/
theorem keyword_eq {w : Text} (hw : w.all Char.isAlpha = true) (hne : w ≠ []) {rest : Text}
    (hrest : g.Bounded rest) : g.keyword w (w ++ rest) = some rest := by
  rw [keyword_word (letters_word hw) hne hrest, if_pos rfl]

/-- Where another keyword is written, it is not. -/
theorem keyword_ne {w x : Text} (hx : x.all Char.isAlpha = true) (hne : x ≠ []) (hw : x ≠ w)
    {rest : Text} (hrest : g.Bounded rest) : g.keyword w (x ++ rest) = none := by
  rw [keyword_word (letters_word hx) hne hrest, if_neg hw]

/-- Where a word is written that is not kept, no kept word is. -/
theorem keyword_isWord {w x : Text} (hx : g.IsWord x) (hw : g.reserved w = true) {rest : Text}
    (hrest : g.Bounded rest) : g.keyword w (x ++ rest) = none := by
  rw [keyword_word hx.chars hx.nonempty hrest, if_neg]
  rintro rfl
  simp [hx.free] at hw

/-- Where a delimiter is written, no keyword is. -/
theorem keyword_delimiter {w : Text} (hw : w ≠ []) {c : Char} (hspace : isSpace c = false)
    (hc : g.wordChar c = false) (rest : Text) : g.keyword w (c :: rest) = none := by
  rw [keyword, skipWs, List.dropWhile_cons_of_neg (by simp [hspace]),
    List.takeWhile_cons_of_neg (by simp [hc]), if_neg hw.symm]

theorem symbol_eq {c : Char} (hspace : isSpace c = false) (rest : Text) :
    symbol c (c :: rest) = some rest := by
  rw [symbol, skipWs, List.dropWhile_cons_of_neg (by simp [hspace])]
  simp

theorem symbol_ne {c d : Char} (hspace : isSpace d = false) (hne : d ≠ c) (rest : Text) :
    symbol c (d :: rest) = none := by
  rw [symbol, skipWs, List.dropWhile_cons_of_neg (by simp [hspace])]
  simp [hne]

theorem symbol_isWord {c : Char} (hc : g.wordChar c = false) {x : Text} (hx : g.IsWord x)
    (rest : Text) : symbol c (x ++ rest) = none := by
  obtain ⟨d, v, rfl, hd⟩ := hx.ne_nil_head
  refine symbol_ne (wordChar_not_space hd) ?_ _
  rintro rfl
  simp [hc] at hd

end MeiliGrammar

end Kernway
