import Kernway.MeiliLexing

namespace Kernway

open MeilisearchQueryBuilder

namespace MeiliGrammar

variable {g : MeiliGrammar} {f : Text} {rest r : Text}

/-- Every value of a predicate is read as it was. -/
def Written (g : MeiliGrammar) : Spec → Prop
  | .compare _ _ v | .like _ v => g.Faithful v
  | .in_ _ vs => ∀ v ∈ vs, g.Faithful v
  | .between _ lo hi => g.IsWord lo ∧ g.IsWord hi
  | .isNull _ | .isNotNull _ => True
  | .and a b | .or a b => g.Written a ∧ g.Written b
  | .not a => g.Written a

theorem follows_word {w : Text} (hw : w.all Char.isAlpha = true) (hne : w ≠ []) (rest : Text) :
    Follows (' ' :: (w ++ rest)) := by
  obtain ⟨c, v, rfl⟩ := List.exists_cons_of_ne_nil hne
  exact .connective _ (List.all_eq_true.mp hw c (List.mem_cons_self ..))

theorem readOp_word {x : Text} (hx : ∀ c ∈ x, g.wordChar c = true) (hne : x ≠ []) (rest : Text) :
    readOp (skipWs (' ' :: (x ++ rest))) = none := by
  obtain ⟨c, v, rfl⟩ := List.exists_cons_of_ne_nil hne
  have hc := hx c (List.mem_cons_self ..)
  have hdelimiter : ∀ d ∈ ['!', '>', '<', '='], c ≠ d := by
    rintro d hd rfl
    have hfalse : g.wordChar c = false := by
      refine g.delimiter c ?_
      simp only [List.mem_cons, List.not_mem_nil, or_false] at hd ⊢
      tauto
    simp [hc] at hfalse
  rw [skipWs_space, skipWs, List.cons_append,
    List.dropWhile_cons_of_neg (by simp [wordChar_not_space hc])]
  unfold readOp
  split
  all_goals first
    | rfl
    | next heq =>
      obtain ⟨rfl, -⟩ := List.cons.inj heq
      exact absurd rfl (hdelimiter _ (by decide))

theorem compareLeaf_eq (hf : g.IsWord f) (op : CompareOp) {v : Text} (hv : g.Faithful v)
    (hrest : g.Bounded rest) :
    g.compareLeaf (comparisonText op f v ++ rest) = some (.compare op f v, rest) := by
  have hop : ∃ s, op.meiliText = ' ' :: s ∧ readOp (skipWs (op.meiliText ++ (quote v ++ rest))) =
      some (op, ' ' :: (quote v ++ rest)) := by
    cases op <;> exact ⟨_, rfl, rfl⟩
  obtain ⟨s, hs, hread⟩ := hop
  rw [compareLeaf, comparisonText, List.append_assoc, List.append_assoc, hs, List.cons_append,
    readValue_word hf (bounded_space g _)]
  rw [hs, List.cons_append] at hread
  simp only [Option.bind_eq_bind, Option.bind_some, hread]
  rw [readValue_space, readValue_quote hv hrest]
  rfl

theorem written_of_compareLeaf (hf : g.IsWord f) {op : CompareOp} {v : Text} (hrest : Follows rest)
    (h : g.compareLeaf (comparisonText op f v ++ rest) = some (.compare op f v, r)) :
    g.Faithful v := by
  have hop : ∃ s, op.meiliText = ' ' :: s ∧ readOp (skipWs (op.meiliText ++ (quote v ++ rest))) =
      some (op, ' ' :: (quote v ++ rest)) := by
    cases op <;> exact ⟨_, rfl, rfl⟩
  obtain ⟨s, hs, hread⟩ := hop
  rw [compareLeaf, comparisonText, List.append_assoc, List.append_assoc, hs, List.cons_append,
    readValue_word hf (bounded_space g _)] at h
  rw [hs, List.cons_append] at hread
  simp only [Option.bind_eq_bind, Option.bind_some, hread] at h
  rw [readValue_space] at h
  obtain ⟨⟨v', s'⟩, hvalue, heq⟩ := Option.bind_eq_some_iff.mp h
  have hsame := (Prod.mk.inj (Option.some.inj heq)).1
  obtain rfl := (Spec.compare.inj hsame).2.2
  exact faithful_of_readValue hrest hvalue

theorem readList_space (n : Nat) (s : Text) : g.readList n (' ' :: s) = g.readList n s := by
  cases n <;> rfl

theorem quoteList_cons (v w : Text) (vs : List Text) :
    quoteList (v :: w :: vs) = quote v ++ ',' :: ' ' :: quoteList (w :: vs) := by
  rw [quoteList, List.map_cons, List.map_cons, List.intercalate_cons_cons, List.append_assoc]
  rfl

theorem quoteList_singleton (v : Text) : quoteList [v] = quote v := by
  simp [quoteList, List.intercalate]

/-- No value starts with a bracket. -/
theorem symbol_quote {v : Text} (hv : g.Faithful v) (rest : Text) :
    symbol ']' (quote v ++ rest) = none := by
  unfold Faithful at hv
  unfold quote
  split
  next hnum =>
    rw [if_pos hnum] at hv
    exact symbol_isWord (g.delimiter ']' (by decide)) hv rest
  next => exact symbol_ne (by decide) (by decide) _

theorem readList_eq {vs : List Text} (hvs : ∀ v ∈ vs, g.Faithful v) {n : Nat}
    (hn : vs.length < n) (rest : Text) :
    g.readList n (quoteList vs ++ ']' :: rest) = some (vs, rest) := by
  have hclose : ∀ s, g.Bounded (']' :: s) := fun s => (Follows.close s (by simp)).bounded
  have hcomma : ∀ s, g.Bounded (',' :: s) := fun s => (Follows.close s (by simp)).bounded
  induction vs generalizing n with
  | nil =>
    obtain ⟨n, rfl⟩ := Nat.exists_eq_succ_of_ne_zero (Nat.ne_of_gt hn)
    rfl
  | cons v vs ih =>
    obtain ⟨n, rfl⟩ := Nat.exists_eq_succ_of_ne_zero (Nat.ne_of_gt (Nat.zero_lt_of_lt hn))
    have hv := hvs v (List.mem_cons_self ..)
    cases vs with
    | nil =>
      rw [quoteList_singleton, readList, symbol_quote hv]
      simp only [readValue_quote hv (hclose rest), Option.bind_eq_bind, Option.bind_some,
        symbol_ne (show isSpace ']' = false by decide) (show ']' ≠ ',' by decide),
        symbol_eq (show isSpace ']' = false by decide)]
      rfl
    | cons w vs =>
      rw [quoteList_cons, List.append_assoc, List.cons_append, List.cons_append, readList,
        symbol_quote hv]
      simp only [readValue_quote hv (hcomma _), Option.bind_eq_bind, Option.bind_some,
        symbol_eq (show isSpace ',' = false by decide), readList_space]
      rw [ih (fun u hu => hvs u (List.mem_cons_of_mem v hu))
        (by simp only [List.length_cons] at hn ⊢; omega)]
      rfl

theorem faithful_of_readList {vs : List Text} {n : Nat}
    (h : g.readList n (quoteList vs ++ ']' :: rest) = some (vs, r)) : ∀ v ∈ vs, g.Faithful v := by
  induction vs generalizing n r with
  | nil => nofun
  | cons v vs ih =>
    cases n with
    | zero => cases h
    | succ n =>
      -- the first value, from what follows it in the list
      have hfirst : ∀ {s : Text}, Follows s →
          g.readList (n + 1) (quote v ++ s) = some (v :: vs, r) → g.Faithful v := by
        intro s hs hread
        rw [readList] at hread
        split at hread
        next => cases hread
        next =>
          obtain ⟨⟨v', s'⟩, hvalue, hread⟩ := Option.bind_eq_some_iff.mp hread
          have hv' : v' = v := by
            dsimp only at hread
            split at hread
            · obtain ⟨⟨vs', s''⟩, -, heq⟩ := Option.bind_eq_some_iff.mp hread
              exact (List.cons.inj (Prod.mk.inj (Option.some.inj heq)).1).1
            · obtain ⟨s'', -, heq⟩ := Option.bind_eq_some_iff.mp hread
              exact (List.cons.inj (Prod.mk.inj (Option.some.inj heq)).1).1
          rw [hv'] at hvalue
          exact faithful_of_readValue hs hvalue
      cases vs with
      | nil =>
        rw [quoteList_singleton] at h
        exact List.forall_mem_singleton.mpr (hfirst (.close rest (by simp)) h)
      | cons w vs =>
        rw [quoteList_cons, List.append_assoc, List.cons_append, List.cons_append] at h
        have hfollows : Follows (',' :: ' ' :: (quoteList (w :: vs) ++ ']' :: rest)) :=
          .close _ (by simp)
        have hv := hfirst hfollows h
        rw [readList, symbol_quote hv] at h
        simp only [readValue_quote hv hfollows.bounded, Option.bind_eq_bind, Option.bind_some,
          symbol_eq (show isSpace ',' = false by decide), readList_space] at h
        obtain ⟨⟨vs', s'⟩, hread, heq⟩ := Option.bind_eq_some_iff.mp h
        obtain ⟨hvs, -⟩ := Prod.mk.inj (Option.some.inj heq)
        obtain ⟨-, rfl⟩ := List.cons.inj hvs
        exact List.forall_mem_cons.mpr ⟨hv, ih hread⟩

theorem length_le_quoteList {vs : List Text} (hvs : ∀ v ∈ vs, g.Faithful v) :
    vs.length ≤ (quoteList vs).length := by
  have hpos : ∀ {v : Text}, g.Faithful v → 0 < (quote v).length := by
    intro v hv
    unfold Faithful at hv
    unfold quote
    split
    next hnum =>
      rw [if_pos hnum] at hv
      exact List.length_pos_iff.mpr hv.nonempty
    next => simp
  induction vs with
  | nil => exact Nat.zero_le _
  | cons v vs ih =>
    have hv := hpos (hvs v (List.mem_cons_self ..))
    cases vs with
    | nil =>
      rw [quoteList_singleton]
      exact hv
    | cons w vs =>
      have hrest := ih fun u hu => hvs u (List.mem_cons_of_mem v hu)
      rw [quoteList_cons]
      simp only [List.length_append, List.length_cons] at hrest ⊢
      omega

section

variable {x s : Text} (hf : g.IsWord f) (hx : ∀ c ∈ x, g.wordChar c = true) (hne : x ≠ [])
  (hs : g.Bounded s)
include hf hx hne

/-- Behind a field and a word there is no comparison. -/
theorem compareLeaf_word : g.compareLeaf (f ++ ' ' :: (x ++ s)) = none := by
  rw [compareLeaf, readValue_word hf (bounded_space g _)]
  simp only [Option.bind_eq_bind, Option.bind_some, readOp_word hx hne, Option.bind_none]

include hs

theorem inLeaf_word (h : x ≠ "IN".toList) : g.inLeaf (f ++ ' ' :: (x ++ s)) = none := by
  rw [inLeaf, readValue_word hf (bounded_space g _)]
  simp only [Option.bind_eq_bind, Option.bind_some, keyword_space, keyword_word hx hne hs, h,
    if_false, Option.bind_none]

theorem containsLeaf_word (h : x ≠ "CONTAINS".toList ∨ g.readValue s = none) :
    g.containsLeaf (f ++ ' ' :: (x ++ s)) = none := by
  rw [containsLeaf, readValue_word hf (bounded_space g _)]
  simp only [Option.bind_eq_bind, Option.bind_some, keyword_space, keyword_word hx hne hs]
  split
  · rw [Option.bind_some, h.resolve_left (· ‹_›), Option.bind_none]
  · rfl

theorem nullLeaf_word (h : x ≠ "IS".toList ∨ g.keyword "NULL".toList s = none) :
    g.nullLeaf (f ++ ' ' :: (x ++ s)) = none := by
  rw [nullLeaf, readValue_word hf (bounded_space g _)]
  simp only [Option.bind_eq_bind, Option.bind_some, keyword_space, keyword_word hx hne hs]
  split
  · rw [Option.bind_some, h.resolve_left (· ‹_›), Option.bind_none]
  · rfl

theorem notNullLeaf_word (h : x ≠ "IS".toList ∨ g.keyword "NOT".toList s = none) :
    g.notNullLeaf (f ++ ' ' :: (x ++ s)) = none := by
  rw [notNullLeaf, readValue_word hf (bounded_space g _)]
  simp only [Option.bind_eq_bind, Option.bind_some, keyword_space, keyword_word hx hne hs]
  split
  · rw [Option.bind_some, h.resolve_left (· ‹_›), Option.bind_none]
  · rfl

end

theorem inText_eq (f : Text) (vs : List Text) (rest : Text) : inText f vs ++ rest =
    f ++ ' ' :: ("IN".toList ++ ' ' :: '[' :: (quoteList vs ++ ']' :: rest)) := by
  simp [inText]

theorem inLeaf_text (hf : g.IsWord f) (s : Text) :
    g.inLeaf (f ++ ' ' :: ("IN".toList ++ ' ' :: '[' :: s)) =
      (g.readList (s.length + 1) s).bind fun (values, s) => some (.in_ f values, s) := by
  have hsymbol : symbol '[' (' ' :: '[' :: s) = some s :=
    symbol_eq (show isSpace '[' = false by decide) s
  rw [inLeaf, readValue_word hf (bounded_space g _), Option.bind_eq_bind, Option.bind_some]
  dsimp only
  rw [keyword_space, keyword_eq (by decide) (by decide) (bounded_space g _), Option.bind_eq_bind,
    Option.bind_some, hsymbol]
  rfl

theorem inLeaf_eq (hf : g.IsWord f) {vs : List Text} (hvs : ∀ v ∈ vs, g.Faithful v) (rest : Text) :
    g.inLeaf (inText f vs ++ rest) = some (.in_ f vs, rest) := by
  have hlength : vs.length < (quoteList vs ++ ']' :: rest).length + 1 := by
    have := length_le_quoteList hvs
    rw [List.length_append]
    omega
  rw [inText_eq, inLeaf_text hf, readList_eq hvs hlength]
  rfl

theorem written_of_inLeaf (hf : g.IsWord f) {vs : List Text}
    (h : g.inLeaf (inText f vs ++ rest) = some (.in_ f vs, r)) : ∀ v ∈ vs, g.Faithful v := by
  rw [inText_eq, inLeaf_text hf] at h
  obtain ⟨⟨vs', s⟩, hread, heq⟩ := Option.bind_eq_some_iff.mp h
  obtain ⟨-, rfl⟩ := Spec.in_.inj (Prod.mk.inj (Option.some.inj heq)).1
  exact faithful_of_readList hread

theorem likeText_eq (f v rest : Text) : specToMeili (.like f v) ++ rest =
    f ++ ' ' :: ("CONTAINS".toList ++ ' ' :: (quote v ++ rest)) := by
  show f ++ " CONTAINS ".toList ++ quote v ++ rest = _
  simp

theorem containsLeaf_text (hf : g.IsWord f) (s : Text) :
    g.containsLeaf (f ++ ' ' :: ("CONTAINS".toList ++ ' ' :: s)) =
      (g.readValue s).bind fun (value, s) => some (.like f value, s) := by
  rw [containsLeaf, readValue_word hf (bounded_space g _), Option.bind_eq_bind, Option.bind_some]
  dsimp only
  rw [keyword_space, keyword_eq (by decide) (by decide) (bounded_space g _)]
  rfl

theorem containsLeaf_eq (hf : g.IsWord f) {v : Text} (hv : g.Faithful v) (hrest : g.Bounded rest) :
    g.containsLeaf (specToMeili (.like f v) ++ rest) = some (.like f v, rest) := by
  rw [likeText_eq, containsLeaf_text hf, readValue_quote hv hrest]
  rfl

theorem written_of_containsLeaf (hf : g.IsWord f) {v : Text} (hrest : Follows rest)
    (h : g.containsLeaf (specToMeili (.like f v) ++ rest) = some (.like f v, r)) :
    g.Faithful v := by
  rw [likeText_eq, containsLeaf_text hf] at h
  obtain ⟨⟨v', s⟩, hvalue, heq⟩ := Option.bind_eq_some_iff.mp h
  obtain ⟨-, rfl⟩ := Spec.like.inj (Prod.mk.inj (Option.some.inj heq)).1
  exact faithful_of_readValue hrest hvalue

theorem rangeText_eq (f lo hi rest : Text) : betweenText f lo hi ++ rest =
    f ++ ' ' :: (lo ++ ' ' :: ("TO".toList ++ ' ' :: (hi ++ rest))) := by
  simp [betweenText]

theorem rangeLeaf_eq (hf : g.IsWord f) {lo hi : Text} (hlo : g.IsWord lo) (hhi : g.IsWord hi)
    (hrest : g.Bounded rest) :
    g.rangeLeaf (betweenText f lo hi ++ rest) = some (.between f lo hi, rest) := by
  rw [rangeText_eq, rangeLeaf, readValue_word hf (bounded_space g _)]
  simp only [Option.bind_eq_bind, Option.bind_some, readValue_space,
    readValue_word hlo (bounded_space g _), keyword_space]
  rw [keyword_eq (by decide) (by decide) (bounded_space g _)]
  simp only [Option.bind_some, readValue_space, readValue_word hhi hrest]
  rfl

theorem written_of_rangeLeaf (hf : g.IsWord f) {lo hi : Text} (hrest : Follows rest)
    (h : g.rangeLeaf (betweenText f lo hi ++ rest) = some (.between f lo hi, r)) :
    g.IsWord lo ∧ g.IsWord hi := by
  rw [rangeText_eq, rangeLeaf, readValue_word hf (bounded_space g _)] at h
  simp only [Option.bind_eq_bind, Option.bind_some, readValue_space] at h
  obtain ⟨⟨lo', s₁⟩, hlo, h⟩ := Option.bind_eq_some_iff.mp h
  obtain ⟨s₂, hto, h⟩ := Option.bind_eq_some_iff.mp h
  obtain ⟨⟨hi', s₃⟩, hhi, heq⟩ := Option.bind_eq_some_iff.mp h
  have hsame := Spec.between.inj (Prod.mk.inj (Option.some.inj heq)).1
  dsimp only at hsame
  rw [hsame.2.1] at hlo
  rw [hsame.2.2] at hhi
  have hlow : g.IsWord lo := isWord_of_readValue (follows_word (by decide) (by decide) _) hlo
  rw [readValue_word hlow (bounded_space g _)] at hlo
  obtain ⟨-, rfl⟩ := Prod.mk.inj (Option.some.inj hlo)
  rw [keyword_space, keyword_eq (by decide) (by decide) (bounded_space g _)] at hto
  obtain rfl := Option.some.inj hto
  exact ⟨hlow, isWord_of_readValue hrest hhi⟩

theorem nullText_eq (f rest : Text) :
    nullText f ++ rest = f ++ ' ' :: ("IS".toList ++ ' ' :: ("NULL".toList ++ rest)) := by
  simp [nullText]

theorem notNullText_eq (f rest : Text) : notNullText f ++ rest =
    f ++ ' ' :: ("IS".toList ++ ' ' :: ("NOT".toList ++ ' ' :: ("NULL".toList ++ rest))) := by
  simp [notNullText]

theorem nullLeaf_eq (hf : g.IsWord f) (hrest : g.Bounded rest) :
    g.nullLeaf (nullText f ++ rest) = some (.isNull f, rest) := by
  rw [nullText_eq, nullLeaf, readValue_word hf (bounded_space g _), Option.bind_eq_bind,
    Option.bind_some]
  dsimp only
  rw [keyword_space, keyword_eq (by decide) (by decide) (bounded_space g _), Option.bind_eq_bind,
    Option.bind_some, keyword_space, keyword_eq (by decide) (by decide) hrest]
  rfl

theorem notNullLeaf_eq (hf : g.IsWord f) (hrest : g.Bounded rest) :
    g.notNullLeaf (notNullText f ++ rest) = some (.isNotNull f, rest) := by
  rw [notNullText_eq, notNullLeaf, readValue_word hf (bounded_space g _), Option.bind_eq_bind,
    Option.bind_some]
  dsimp only
  rw [keyword_space, keyword_eq (by decide) (by decide) (bounded_space g _), Option.bind_eq_bind,
    Option.bind_some, keyword_space, keyword_eq (by decide) (by decide) (bounded_space g _),
    Option.bind_some, keyword_space, keyword_eq (by decide) (by decide) hrest]
  rfl

/-- No value starts with a word that is kept. -/
theorem readValue_reserved {w : Text} (hw : w.all Char.isAlpha = true) (hne : w ≠ [])
    (hreserved : g.reserved w = true) (hrest : g.Bounded rest) :
    g.readValue (' ' :: (w ++ rest)) = none := by
  obtain ⟨c, v, rfl⟩ := List.exists_cons_of_ne_nil hne
  have hchars := letters_word (g := g) hw
  have hc := hchars c (List.mem_cons_self ..)
  have hskip : skipWs ((c :: v) ++ rest) = (c :: v) ++ rest := by
    rw [skipWs, List.cons_append, List.dropWhile_cons_of_neg]
    simp [wordChar_not_space hc]
  have hquote : ∀ d ∈ ((c :: v) ++ rest).head?, d ≠ '"' ∧ d ≠ '\'' := by
    intro d hd
    cases Option.mem_some_iff.mp hd
    constructor <;> rintro rfl
    · simp [g.delimiter '"' (by decide)] at hc
    · simp [g.delimiter '\'' (by decide)] at hc
  rw [readValue_space, readValue_eq_readWord (by rwa [hskip]), hskip, readWord,
    (takeWhile_word hchars hrest).1, if_pos (.inr hreserved)]

theorem leaf_space (s : Text) : g.leaf (' ' :: s) = g.leaf s := rfl

/-- A predicate that is read from one condition. -/
def Atomic : Spec → Prop
  | .and _ _ | .or _ _ | .not _ => False
  | _ => True

theorem leaf_eq {l : Spec} (hatomic : Atomic l) (hfields : ∀ f ∈ l.fields, g.IsWord f)
    (hl : g.Written l) (hrest : g.Bounded rest) :
    g.leaf (specToMeili l ++ rest) = some (l, rest) := by
  have hspace := bounded_space g
  cases l with
  | compare op f v =>
    rw [leaf, show specToMeili (.compare op f v) = comparisonText op f v from rfl,
      compareLeaf_eq (hfields f (List.mem_singleton_self f)) op hl hrest]
    rfl
  | in_ f vs =>
    have hf := hfields f (List.mem_singleton_self f)
    have hcompare : g.compareLeaf (inText f vs ++ rest) = none := by
      rw [inText_eq]
      exact compareLeaf_word hf (letters_word (by decide)) (by decide)
    rw [leaf, show specToMeili (.in_ f vs) = inText f vs from rfl, hcompare, inLeaf_eq hf hl]
    rfl
  | like f v =>
    have hf := hfields f (List.mem_singleton_self f)
    have hx : ∀ c ∈ "CONTAINS".toList, g.wordChar c = true := letters_word (by decide)
    have hcompare : g.compareLeaf (specToMeili (.like f v) ++ rest) = none := by
      rw [likeText_eq]
      exact compareLeaf_word hf hx (by decide)
    have hin : g.inLeaf (specToMeili (.like f v) ++ rest) = none := by
      rw [likeText_eq]
      exact inLeaf_word hf hx (by decide) (hspace _) (by decide)
    rw [leaf, hcompare, hin, containsLeaf_eq hf hl hrest]
    rfl
  | isNull f =>
    have hf := hfields f (List.mem_singleton_self f)
    have hx : ∀ c ∈ "IS".toList, g.wordChar c = true := letters_word (by decide)
    have hcompare : g.compareLeaf (nullText f ++ rest) = none := by
      rw [nullText_eq]
      exact compareLeaf_word hf hx (by decide)
    have hin : g.inLeaf (nullText f ++ rest) = none := by
      rw [nullText_eq]
      exact inLeaf_word hf hx (by decide) (hspace _) (by decide)
    have hcontains : g.containsLeaf (nullText f ++ rest) = none := by
      rw [nullText_eq]
      exact containsLeaf_word hf hx (by decide) (hspace _) (.inl (by decide))
    rw [leaf, show specToMeili (.isNull f) = nullText f from rfl, hcompare, hin, hcontains,
      nullLeaf_eq hf hrest]
    rfl
  | isNotNull f =>
    have hf := hfields f (List.mem_singleton_self f)
    have hx : ∀ c ∈ "IS".toList, g.wordChar c = true := letters_word (by decide)
    have hcompare : g.compareLeaf (notNullText f ++ rest) = none := by
      rw [notNullText_eq]
      exact compareLeaf_word hf hx (by decide)
    have hin : g.inLeaf (notNullText f ++ rest) = none := by
      rw [notNullText_eq]
      exact inLeaf_word hf hx (by decide) (hspace _) (by decide)
    have hcontains : g.containsLeaf (notNullText f ++ rest) = none := by
      rw [notNullText_eq]
      exact containsLeaf_word hf hx (by decide) (hspace _) (.inl (by decide))
    have hnull : g.nullLeaf (notNullText f ++ rest) = none := by
      rw [notNullText_eq]
      refine nullLeaf_word hf hx (by decide) (hspace _) (.inr ?_)
      rw [keyword_space]
      exact keyword_ne (by decide) (by decide) (by decide) (hspace _)
    rw [leaf, show specToMeili (.isNotNull f) = notNullText f from rfl, hcompare, hin, hcontains,
      hnull, notNullLeaf_eq hf hrest]
    rfl
  | between f lo hi =>
    have hf := hfields f (List.mem_singleton_self f)
    obtain ⟨hlo, hhi⟩ := hl
    have hto : g.reserved "TO".toList = true := g.connective _ (by decide)
    have hnotin : lo ≠ "IN".toList := by
      rintro rfl
      have hin : g.reserved "IN".toList = true := g.connective _ (by decide)
      exact Bool.false_ne_true (hlo.free.symm.trans hin)
    have hcompare : g.compareLeaf (betweenText f lo hi ++ rest) = none := by
      rw [rangeText_eq]
      exact compareLeaf_word hf hlo.chars hlo.nonempty
    have hin : g.inLeaf (betweenText f lo hi ++ rest) = none := by
      rw [rangeText_eq]
      exact inLeaf_word hf hlo.chars hlo.nonempty (hspace _) hnotin
    -- a lower bound that is the word of another condition does not stand before `TO`
    have hcontains : g.containsLeaf (betweenText f lo hi ++ rest) = none := by
      rw [rangeText_eq]
      refine containsLeaf_word hf hlo.chars hlo.nonempty (hspace _) (.inr ?_)
      exact readValue_reserved (by decide) (by decide) hto (hspace _)
    have hkeyword : ∀ w, "TO".toList ≠ w →
        g.keyword w (' ' :: ("TO".toList ++ ' ' :: (hi ++ rest))) = none := by
      intro w hw
      rw [keyword_space]
      exact keyword_ne (by decide) (by decide) hw (hspace _)
    have hnull : g.nullLeaf (betweenText f lo hi ++ rest) = none := by
      rw [rangeText_eq]
      exact nullLeaf_word hf hlo.chars hlo.nonempty (hspace _) (.inr (hkeyword _ (by decide)))
    have hnotNull : g.notNullLeaf (betweenText f lo hi ++ rest) = none := by
      rw [rangeText_eq]
      exact notNullLeaf_word hf hlo.chars hlo.nonempty (hspace _) (.inr (hkeyword _ (by decide)))
    rw [leaf, show specToMeili (.between f lo hi) = betweenText f lo hi from rfl, hcompare, hin,
      hcontains, hnull, hnotNull, rangeLeaf_eq hf hlo hhi hrest]
    rfl
  | and a b => exact hatomic.elim
  | or a b => exact hatomic.elim
  | not a => exact hatomic.elim

/-- The reader that a condition is read by. -/
theorem leaf_cases {s : Text} {l : Spec} (h : g.leaf s = some (l, r)) :
    (∃ op f v, l = .compare op f v ∧ g.compareLeaf s = some (l, r)) ∨
    (∃ f vs, l = .in_ f vs ∧ g.inLeaf s = some (l, r)) ∨
    (∃ f v, l = .like f v ∧ g.containsLeaf s = some (l, r)) ∨
    (∃ f, l = .isNull f) ∨ (∃ f, l = .isNotNull f) ∨
    (∃ f lo hi, l = .between f lo hi ∧ g.rangeLeaf s = some (l, r)) := by
  unfold leaf at h
  simp only [Option.or_eq_some_iff] at h
  rcases h with h | ⟨-, h⟩
  · obtain ⟨⟨f, s₁⟩, -, hread⟩ := Option.bind_eq_some_iff.mp h
    obtain ⟨⟨op, s₂⟩, -, hread⟩ := Option.bind_eq_some_iff.mp hread
    obtain ⟨⟨v, s₃⟩, -, heq⟩ := Option.bind_eq_some_iff.mp hread
    exact .inl ⟨op, f, v, (Prod.mk.inj (Option.some.inj heq)).1.symm, h⟩
  refine .inr ?_
  rcases h with h | ⟨-, h⟩
  · obtain ⟨⟨f, s₁⟩, -, hread⟩ := Option.bind_eq_some_iff.mp h
    obtain ⟨s₂, -, hread⟩ := Option.bind_eq_some_iff.mp hread
    obtain ⟨s₃, -, hread⟩ := Option.bind_eq_some_iff.mp hread
    obtain ⟨⟨vs, s₄⟩, -, heq⟩ := Option.bind_eq_some_iff.mp hread
    exact .inl ⟨f, vs, (Prod.mk.inj (Option.some.inj heq)).1.symm, h⟩
  refine .inr ?_
  rcases h with h | ⟨-, h⟩
  · obtain ⟨⟨f, s₁⟩, -, hread⟩ := Option.bind_eq_some_iff.mp h
    obtain ⟨s₂, -, hread⟩ := Option.bind_eq_some_iff.mp hread
    obtain ⟨⟨v, s₃⟩, -, heq⟩ := Option.bind_eq_some_iff.mp hread
    exact .inl ⟨f, v, (Prod.mk.inj (Option.some.inj heq)).1.symm, h⟩
  refine .inr ?_
  rcases h with h | ⟨-, h⟩
  · obtain ⟨⟨f, s₁⟩, -, hread⟩ := Option.bind_eq_some_iff.mp h
    obtain ⟨s₂, -, hread⟩ := Option.bind_eq_some_iff.mp hread
    obtain ⟨s₃, -, heq⟩ := Option.bind_eq_some_iff.mp hread
    exact .inl ⟨f, (Prod.mk.inj (Option.some.inj heq)).1.symm⟩
  refine .inr ?_
  rcases h with h | ⟨-, h⟩
  · obtain ⟨⟨f, s₁⟩, -, hread⟩ := Option.bind_eq_some_iff.mp h
    obtain ⟨s₂, -, hread⟩ := Option.bind_eq_some_iff.mp hread
    obtain ⟨s₃, -, hread⟩ := Option.bind_eq_some_iff.mp hread
    obtain ⟨s₄, -, heq⟩ := Option.bind_eq_some_iff.mp hread
    exact .inl ⟨f, (Prod.mk.inj (Option.some.inj heq)).1.symm⟩
  refine .inr ?_
  obtain ⟨⟨f, s₁⟩, -, hread⟩ := Option.bind_eq_some_iff.mp h
  obtain ⟨⟨lo, s₂⟩, -, hread⟩ := Option.bind_eq_some_iff.mp hread
  obtain ⟨s₃, -, hread⟩ := Option.bind_eq_some_iff.mp hread
  obtain ⟨⟨hi, s₄⟩, -, heq⟩ := Option.bind_eq_some_iff.mp hread
  exact ⟨f, lo, hi, (Prod.mk.inj (Option.some.inj heq)).1.symm, h⟩

theorem atomic_of_leaf {s : Text} {l : Spec} (h : g.leaf s = some (l, r)) : Atomic l := by
  rcases leaf_cases h with ⟨_, _, _, rfl, -⟩ | ⟨_, _, rfl, -⟩ | ⟨_, _, rfl, -⟩ | ⟨_, rfl⟩ |
    ⟨_, rfl⟩ | ⟨_, _, _, rfl, -⟩ <;> trivial

/-- A predicate that is read back from its text was written with values that are. -/
theorem written_of_leaf {l : Spec} (hfields : ∀ f ∈ l.fields, g.IsWord f) (hrest : Follows rest)
    (h : g.leaf (specToMeili l ++ rest) = some (l, r)) : g.Written l ∧ r = rest := by
  have hwritten : g.Written l := by
    rcases leaf_cases h with ⟨op, f, v, rfl, hleaf⟩ | ⟨f, vs, rfl, hleaf⟩ | ⟨f, v, rfl, hleaf⟩ |
      ⟨f, rfl⟩ | ⟨f, rfl⟩ | ⟨f, lo, hi, rfl, hleaf⟩
    · exact written_of_compareLeaf (hfields f (List.mem_singleton_self f)) hrest hleaf
    · exact written_of_inLeaf (hfields f (List.mem_singleton_self f)) hleaf
    · exact written_of_containsLeaf (hfields f (List.mem_singleton_self f)) hrest hleaf
    · trivial
    · trivial
    · exact written_of_rangeLeaf (hfields f (List.mem_singleton_self f)) hrest hleaf
  rw [leaf_eq (atomic_of_leaf h) hfields hwritten hrest.bounded] at h
  exact ⟨hwritten, (Prod.mk.inj (Option.some.inj h)).2.symm⟩

end MeiliGrammar

end Kernway
