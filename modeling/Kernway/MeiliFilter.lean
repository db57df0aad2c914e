import Kernway.MeiliLeaves

namespace Kernway

open MeilisearchQueryBuilder

/-- The predicate that a call adds to the filter. -/
def QueryCall.predicate : QueryCall → Option Spec
  | .compare op f v => some (.compare op f v)
  | .in_ f vs => some (.in_ f vs)
  | .between f lo hi => some (.between f lo hi)
  | .isNull f => some (.isNull f)
  | .isNotNull f => some (.isNotNull f)
  | .spec s => some s
  | _ => none

namespace Spec

/-- The predicates of a list, all of them. -/
def conj : Spec → List Spec → Spec
  | p, [] => p
  | p, q :: qs => .and p (conj q qs)

def conjunction : List Spec → Option Spec
  | [] => none
  | p :: ps => some (conj p ps)

/-- The conditions of a predicate from left to right. -/
def atoms : Spec → List Spec
  | .and a b | .or a b => a.atoms ++ b.atoms
  | .not a => a.atoms
  | l => [l]

theorem atoms_ne_nil (s : Spec) : s.atoms ≠ [] := by
  induction s with
  | and a b iha ihb => simp [atoms, iha]
  | or a b iha ihb => simp [atoms, iha]
  | not a ih => exact ih
  | _ => nofun

end Spec

namespace MeilisearchQueryBuilder

theorem filters_foldl (calls : List QueryCall) (b : MeilisearchQueryBuilder) :
    (calls.foldl call b).filters =
      b.filters ++ (calls.filterMap QueryCall.predicate).map specToMeili := by
  induction calls generalizing b with
  | nil => simp
  | cons c calls ih =>
    rw [List.foldl_cons, ih]
    cases c <;> simp [call, push, QueryCall.predicate, List.filterMap_cons] <;> rfl

theorem filters_build (calls : List QueryCall) :
    (build calls).filters = (calls.filterMap QueryCall.predicate).map specToMeili :=
  filters_foldl calls {}

end MeilisearchQueryBuilder

namespace MeiliGrammar

variable {g : MeiliGrammar} {n : Nat} {s s₁ s₂ r rest : Text} {a b : Spec}

/-- `NOT` is looked for first. -/
theorem parseAt_not_eq (n : Nat) (s : Text) : g.parseAt (n + 1) .not s =
    match g.keyword "NOT".toList s with
    | none => g.parseAt n .primary s
    | some s => (g.parseAt n .not s).bind fun p => some (.not p.1, p.2) := rfl

theorem parseAt_primary_eq (n : Nat) (s : Text) : g.parseAt (n + 1) .primary s =
    match symbol '(' s with
    | none => g.leaf s
    | some s => (g.parseAt n .or s).bind fun p => (symbol ')' p.2).bind fun s => some (p.1, s) := rfl

theorem parseAt_or (ha : g.parseAt n .and s = some (a, r)) (hor : g.keyword "OR".toList r = none) :
    g.parseAt (n + 1) .or s = some (a, r) := by
  show (g.parseAt n .and s).bind _ = _
  rw [ha, Option.bind_some]
  dsimp only
  rw [hor]
  rfl

theorem parseAt_or_or (ha : g.parseAt n .and s = some (a, s₁))
    (hor : g.keyword "OR".toList s₁ = some s₂) (hb : g.parseAt n .or s₂ = some (b, r)) :
    g.parseAt (n + 1) .or s = some (.or a b, r) := by
  show (g.parseAt n .and s).bind _ = _
  rw [ha, Option.bind_some]
  dsimp only
  rw [hor]
  dsimp only
  rw [hb]
  rfl

theorem parseAt_and (ha : g.parseAt n .not s = some (a, r))
    (hand : g.keyword "AND".toList r = none) : g.parseAt (n + 1) .and s = some (a, r) := by
  show (g.parseAt n .not s).bind _ = _
  rw [ha, Option.bind_some]
  dsimp only
  rw [hand]
  rfl

theorem parseAt_and_and (ha : g.parseAt n .not s = some (a, s₁))
    (hand : g.keyword "AND".toList s₁ = some s₂) (hb : g.parseAt n .and s₂ = some (b, r)) :
    g.parseAt (n + 1) .and s = some (.and a b, r) := by
  show (g.parseAt n .not s).bind _ = _
  rw [ha, Option.bind_some]
  dsimp only
  rw [hand]
  dsimp only
  rw [hb]
  rfl

theorem parseAt_group (hnot : g.keyword "NOT".toList s = none) (hopen : symbol '(' s = some s₁)
    (ha : g.parseAt n .or s₁ = some (a, s₂)) (hclose : symbol ')' s₂ = some r) :
    g.parseAt (n + 2) .not s = some (a, r) := by
  rw [parseAt_not_eq, hnot]
  dsimp only
  rw [parseAt_primary_eq, hopen]
  dsimp only
  rw [ha, Option.bind_some]
  dsimp only
  rw [hclose]
  rfl

theorem parseAt_leaf (hnot : g.keyword "NOT".toList s = none) (hopen : symbol '(' s = none) :
    g.parseAt (n + 2) .not s = g.leaf s := by
  rw [parseAt_not_eq, hnot]
  dsimp only
  rw [parseAt_primary_eq, hopen]

theorem parseAt_not (hnot : g.keyword "NOT".toList s = some s₁)
    (ha : g.parseAt n .not s₁ = some (a, r)) : g.parseAt (n + 1) .not s = some (.not a, r) := by
  rw [parseAt_not_eq, hnot]
  dsimp only
  rw [ha]
  rfl

/-- An expression is read behind a space as without it. -/
theorem parseAt_space (level : Level) (s : Text) :
    g.parseAt n level (' ' :: s) = g.parseAt n level s := by
  induction n generalizing level with
  | zero => rfl
  | succ n ih =>
    cases level with
    | or => exact congrArg (Option.bind · _) (ih .and)
    | and => exact congrArg (Option.bind · _) (ih .not)
    | not => rw [parseAt_not_eq, parseAt_not_eq, keyword_space, ih]
    | primary => rw [parseAt_primary_eq, parseAt_primary_eq, symbol_space, leaf_space]

theorem symbol_open (s : Text) : symbol '(' ('(' :: s) = some s :=
  symbol_eq (show isSpace '(' = false by decide) s

theorem symbol_close (s : Text) : symbol ')' (')' :: s) = some s :=
  symbol_eq (show isSpace ')' = false by decide) s

theorem keyword_open {w : Text} (hw : w ≠ []) (s : Text) : g.keyword w ('(' :: s) = none :=
  keyword_delimiter hw (by decide) (g.delimiter '(' (by decide)) s

theorem keyword_close {w : Text} (hw : w ≠ []) (s : Text) : g.keyword w (')' :: s) = none :=
  keyword_delimiter hw (by decide) (g.delimiter ')' (by decide)) s

theorem andText_eq (a b : Spec) (rest : Text) : specToMeili (.and a b) ++ rest =
    '(' :: (specToMeili a ++ ' ' :: ("AND".toList ++ ' ' :: (specToMeili b ++ ')' :: rest))) := by
  show "(".toList ++ specToMeili a ++ " AND ".toList ++ specToMeili b ++ ")".toList ++ rest = _
  simp

theorem orText_eq (a b : Spec) (rest : Text) : specToMeili (.or a b) ++ rest =
    '(' :: (specToMeili a ++ ' ' :: ("OR".toList ++ ' ' :: (specToMeili b ++ ')' :: rest))) := by
  show "(".toList ++ specToMeili a ++ " OR ".toList ++ specToMeili b ++ ")".toList ++ rest = _
  simp

theorem notText_eq (a : Spec) (rest : Text) : specToMeili (.not a) ++ rest =
    "NOT".toList ++ ' ' :: '(' :: (specToMeili a ++ ')' :: rest) := by
  show "NOT (".toList ++ specToMeili a ++ ")".toList ++ rest = _
  simp

/-- The text of a condition starts with its field. -/
theorem leafText_eq {l : Spec} (hatomic : Atomic l) (rest : Text) :
    ∃ f t, l.fields = [f] ∧ specToMeili l ++ rest = f ++ ' ' :: t := by
  cases l with
  | compare op f v =>
    have hop : ∃ t, op.meiliText = ' ' :: t := by cases op <;> exact ⟨_, rfl⟩
    obtain ⟨t, ht⟩ := hop
    refine ⟨f, t ++ (quote v ++ rest), rfl, ?_⟩
    show comparisonText op f v ++ rest = _
    simp only [comparisonText, ht, List.append_assoc, List.cons_append]
  | in_ f vs => exact ⟨f, _, rfl, inText_eq f vs rest⟩
  | like f v => exact ⟨f, _, rfl, likeText_eq f v rest⟩
  | isNull f => exact ⟨f, _, rfl, nullText_eq f rest⟩
  | isNotNull f => exact ⟨f, _, rfl, notNullText_eq f rest⟩
  | between f lo hi => exact ⟨f, _, rfl, rangeText_eq f lo hi rest⟩
  | and a b => exact hatomic.elim
  | or a b => exact hatomic.elim
  | not a => exact hatomic.elim

/-- No connective and no bracket stands before a condition. -/
theorem leaf_start {l : Spec} (hatomic : Atomic l) (hfields : ∀ f ∈ l.fields, g.IsWord f)
    (rest : Text) :
    (∀ w ∈ ["AND".toList, "OR".toList, "NOT".toList],
      g.keyword w (specToMeili l ++ rest) = none) ∧
    ∀ c ∈ ['(', ')'], symbol c (specToMeili l ++ rest) = none := by
  obtain ⟨f, t, hf, htext⟩ := leafText_eq hatomic rest
  have hword : g.IsWord f := hfields f (by simp [hf])
  rw [htext]
  constructor
  · intro w hw
    refine keyword_isWord hword (g.connective w ?_) (bounded_space g _)
    exact List.mem_append_left ["IN".toList, "TO".toList] hw
  · intro c hc
    refine symbol_isWord (g.delimiter c ?_) hword _
    simp only [List.mem_cons, List.not_mem_nil, or_false] at hc ⊢
    tauto

theorem specToMeili_pos {l : Spec} (hatomic : Atomic l) : 0 < (specToMeili l).length := by
  obtain ⟨f, t, -, htext⟩ := leafText_eq hatomic []
  rw [List.append_nil] at htext
  rw [htext, List.length_append, List.length_cons]
  omega

theorem parseAt_atomic {l : Spec} (hatomic : Atomic l) (hfields : ∀ f ∈ l.fields, g.IsWord f)
    (hn : 8 * (specToMeili l).length ≤ n) :
    g.parseAt n .not (specToMeili l ++ rest) = g.leaf (specToMeili l ++ rest) := by
  have hpos := specToMeili_pos hatomic
  obtain ⟨n, rfl⟩ := Nat.exists_eq_add_of_le' (show 2 ≤ n by omega)
  obtain ⟨hkeyword, hsymbol⟩ := leaf_start hatomic hfields rest
  exact parseAt_leaf (hkeyword _ (by decide)) (hsymbol _ (by decide))

/-- A predicate with faithful values is read back from its text. -/
theorem parseAt_specToMeili {spec : Spec} (hfields : ∀ f ∈ spec.fields, g.IsWord f)
    (hwritten : g.Written spec) (hrest : Follows rest)
    (hn : 8 * (specToMeili spec).length ≤ n) :
    g.parseAt n .not (specToMeili spec ++ rest) = some (spec, rest) := by
  have hspace := bounded_space g
  induction spec generalizing rest n with
  | and a b iha ihb =>
    have hlength : (specToMeili (.and a b)).length =
        (specToMeili a).length + (specToMeili b).length + 7 := by
      have htext := congrArg List.length (andText_eq a b [])
      simp at htext
      omega
    obtain ⟨n, rfl⟩ := Nat.exists_eq_add_of_le' (show 5 ≤ n by omega)
    have ha := iha (n := n + 1) (fun f hf => hfields f (List.mem_append_left _ hf)) hwritten.1
      (follows_word (w := "AND".toList) (by decide) (by decide)
        (' ' :: (specToMeili b ++ ')' :: rest))) (by omega)
    have hb := ihb (n := n) (fun f hf => hfields f (List.mem_append_right _ hf)) hwritten.2
      (.close rest (.inl rfl)) (by omega)
    have hright := parseAt_and hb (keyword_close (by decide) rest)
    rw [← parseAt_space] at hright
    have hand : g.keyword "AND".toList
        (' ' :: ("AND".toList ++ ' ' :: (specToMeili b ++ ')' :: rest))) =
          some (' ' :: (specToMeili b ++ ')' :: rest)) := by
      rw [keyword_space]
      exact keyword_eq (by decide) (by decide) (hspace _)
    have hboth := parseAt_or (parseAt_and_and ha hand hright) (keyword_close (by decide) rest)
    rw [andText_eq]
    exact parseAt_group (keyword_open (by decide) _) (symbol_open _) hboth (symbol_close rest)
  | or a b iha ihb =>
    have hlength : (specToMeili (.or a b)).length =
        (specToMeili a).length + (specToMeili b).length + 6 := by
      have htext := congrArg List.length (orText_eq a b [])
      simp at htext
      omega
    obtain ⟨n, rfl⟩ := Nat.exists_eq_add_of_le' (show 5 ≤ n by omega)
    have ha := iha (n := n + 1) (fun f hf => hfields f (List.mem_append_left _ hf)) hwritten.1
      (follows_word (w := "OR".toList) (by decide) (by decide)
        (' ' :: (specToMeili b ++ ')' :: rest))) (by omega)
    have hb := ihb (n := n) (fun f hf => hfields f (List.mem_append_right _ hf)) hwritten.2
      (.close rest (.inl rfl)) (by omega)
    have hright := parseAt_or (parseAt_and hb (keyword_close (by decide) rest))
      (keyword_close (by decide) rest)
    rw [← parseAt_space] at hright
    have hand : g.keyword "AND".toList
        (' ' :: ("OR".toList ++ ' ' :: (specToMeili b ++ ')' :: rest))) = none := by
      rw [keyword_space]
      exact keyword_ne (by decide) (by decide) (by decide) (hspace _)
    have hor : g.keyword "OR".toList
        (' ' :: ("OR".toList ++ ' ' :: (specToMeili b ++ ')' :: rest))) =
          some (' ' :: (specToMeili b ++ ')' :: rest)) := by
      rw [keyword_space]
      exact keyword_eq (by decide) (by decide) (hspace _)
    have hboth := parseAt_or_or (parseAt_and ha hand) hor hright
    rw [orText_eq]
    exact parseAt_group (keyword_open (by decide) _) (symbol_open _) hboth (symbol_close rest)
  | not a ih =>
    have hlength : (specToMeili (.not a)).length = (specToMeili a).length + 6 := by
      have htext := congrArg List.length (notText_eq a [])
      simp at htext
      omega
    obtain ⟨n, rfl⟩ := Nat.exists_eq_add_of_le' (show 5 ≤ n by omega)
    have ha := ih (n := n) hfields hwritten (.close rest (.inl rfl)) (by omega)
    have hinner := parseAt_or (parseAt_and ha (keyword_close (by decide) rest))
      (keyword_close (by decide) rest)
    have hgroup := parseAt_group (keyword_open (by decide) _) (symbol_open _) hinner
      (symbol_close rest)
    rw [← parseAt_space] at hgroup
    rw [notText_eq]
    exact parseAt_not (keyword_eq (by decide) (by decide) (hspace _)) hgroup
  | _ =>
    rw [parseAt_atomic (by trivial) hfields hn]
    exact leaf_eq (by trivial) hfields hwritten hrest.bounded

/-- The texts of predicates, with `AND` between them. -/
theorem intercalate_cons (p q : Spec) (ps : List Spec) :
    " AND ".toList.intercalate ((p :: q :: ps).map specToMeili) =
      specToMeili p ++ ' ' :: ("AND".toList ++ ' ' ::
        " AND ".toList.intercalate ((q :: ps).map specToMeili)) := by
  rw [List.map_cons, List.map_cons, List.intercalate_cons_cons, List.append_assoc]
  rfl

/-- Predicates with faithful values are read back from their filter. -/
theorem parseAt_intercalate {p : Spec} {ps : List Spec}
    (hfields : ∀ q ∈ p :: ps, ∀ f ∈ q.fields, g.IsWord f) (hwritten : ∀ q ∈ p :: ps, g.Written q)
    (hn : 8 * (" AND ".toList.intercalate ((p :: ps).map specToMeili)).length < n) :
    g.parseAt n .and (" AND ".toList.intercalate ((p :: ps).map specToMeili)) =
      some (Spec.conj p ps, []) := by
  induction ps generalizing p n with
  | nil =>
    have htext : " AND ".toList.intercalate ([p].map specToMeili) = specToMeili p ++ [] := by
      simp [List.intercalate]
    rw [htext] at hn ⊢
    obtain ⟨n, rfl⟩ := Nat.exists_eq_add_of_le' (show 1 ≤ n by omega)
    rw [List.append_nil] at hn
    have hp := hfields p (List.mem_singleton_self p)
    have hread := parseAt_specToMeili (n := n) hp (hwritten p (List.mem_singleton_self p)) .nil
      (by omega)
    exact parseAt_and hread rfl
  | cons q ps ih =>
    rw [intercalate_cons] at hn ⊢
    simp only [List.length_append, List.length_cons] at hn
    obtain ⟨n, rfl⟩ := Nat.exists_eq_add_of_le' (show 1 ≤ n by omega)
    have hp := parseAt_specToMeili (n := n) (hfields p (List.mem_cons_self ..))
      (hwritten p (List.mem_cons_self ..))
      (follows_word (w := "AND".toList) (by decide) (by decide)
        (' ' :: " AND ".toList.intercalate ((q :: ps).map specToMeili))) (by omega)
    have hand : g.keyword "AND".toList (' ' :: ("AND".toList ++ ' ' ::
        " AND ".toList.intercalate ((q :: ps).map specToMeili))) =
          some (' ' :: " AND ".toList.intercalate ((q :: ps).map specToMeili)) := by
      rw [keyword_space]
      exact keyword_eq (by decide) (by decide) (bounded_space g _)
    have hps := ih (n := n) (fun u hu => hfields u (List.mem_cons_of_mem p hu))
      (fun u hu => hwritten u (List.mem_cons_of_mem p hu)) (by omega)
    rw [← parseAt_space] at hps
    exact parseAt_and_and hp hand hps

/-- A bracket or a connective is read. -/
def Skip (g : MeiliGrammar) (s s' : Text) : Prop :=
  (∃ c ∈ ['(', ')'], symbol c s = some s') ∨
    ∃ w ∈ ["AND".toList, "OR".toList, "NOT".toList], g.keyword w s = some s'

/-- The conditions that are read from a text, whatever stands between them. -/
inductive Reads (g : MeiliGrammar) : Text → List Spec → Text → Prop
  | done (s : Text) : Reads g s [] s
  | skip {s s' r : Text} {ls : List Spec} (h : g.Skip s s') (hs : Reads g s' ls r) : Reads g s ls r
  | leaf {s s' r : Text} {l : Spec} {ls : List Spec} (h : g.leaf s = some (l, s'))
      (hs : Reads g s' ls r) : Reads g s (l :: ls) r

theorem Reads.trans {ls ms : List Spec} (hs : g.Reads s ls s₁) (h : g.Reads s₁ ms r) :
    g.Reads s (ls ++ ms) r := by
  induction hs with
  | done s => exact h
  | skip hskip _ ih => exact .skip hskip (ih h)
  | leaf hleaf _ ih => exact .leaf hleaf (ih h)

/-- The conditions of a predicate are read one after the other. -/
theorem reads_of_parseAt {level : Level} (h : g.parseAt n level s = some (a, r)) :
    g.Reads s a.atoms r := by
  induction n generalizing level s a r with
  | zero => cases h
  | succ n ih =>
    cases level with
    | or =>
      obtain ⟨⟨b, s₁⟩, hb, h⟩ := Option.bind_eq_some_iff.mp h
      dsimp only at h
      split at h
      next =>
        obtain ⟨rfl, rfl⟩ := Prod.mk.inj (Option.some.inj h)
        exact ih hb
      next s₂ hor =>
        obtain ⟨⟨c, s₃⟩, hc, heq⟩ := Option.bind_eq_some_iff.mp h
        obtain ⟨rfl, rfl⟩ := Prod.mk.inj (Option.some.inj heq)
        have hskip : g.Skip s₁ s₂ := .inr ⟨_, by decide, hor⟩
        exact (ih hb).trans (.skip hskip (ih hc))
    | and =>
      obtain ⟨⟨b, s₁⟩, hb, h⟩ := Option.bind_eq_some_iff.mp h
      dsimp only at h
      split at h
      next =>
        obtain ⟨rfl, rfl⟩ := Prod.mk.inj (Option.some.inj h)
        exact ih hb
      next s₂ hand =>
        obtain ⟨⟨c, s₃⟩, hc, heq⟩ := Option.bind_eq_some_iff.mp h
        obtain ⟨rfl, rfl⟩ := Prod.mk.inj (Option.some.inj heq)
        have hskip : g.Skip s₁ s₂ := .inr ⟨_, by decide, hand⟩
        exact (ih hb).trans (.skip hskip (ih hc))
    | not =>
      rw [parseAt] at h
      split at h
      next => exact ih h
      next s₁ hnot =>
        obtain ⟨⟨b, s₂⟩, hb, heq⟩ := Option.bind_eq_some_iff.mp h
        obtain ⟨rfl, rfl⟩ := Prod.mk.inj (Option.some.inj heq)
        have hskip : g.Skip s s₁ := .inr ⟨_, by decide, hnot⟩
        have hinner : g.Reads s₁ b.atoms s₂ := ih hb
        exact .skip hskip hinner
    | primary =>
      rw [parseAt] at h
      split at h
      next =>
        have hatoms : a.atoms = [a] := by
          have := atomic_of_leaf h
          cases a <;> first | rfl | exact this.elim
        rw [hatoms]
        exact .leaf h (.done r)
      next s₁ hopen =>
        obtain ⟨⟨b, s₂⟩, hb, h⟩ := Option.bind_eq_some_iff.mp h
        obtain ⟨s₃, hclose, heq⟩ := Option.bind_eq_some_iff.mp h
        obtain ⟨rfl, rfl⟩ := Prod.mk.inj (Option.some.inj heq)
        have hend : g.Reads s₂ [] s₃ := .skip (.inl ⟨_, by decide, hclose⟩) (.done s₃)
        have hall := (ih hb).trans hend
        rw [List.append_nil] at hall
        exact .skip (.inl ⟨_, by decide, hopen⟩) hall

theorem Reads.of_space {ls : List Spec} (h : g.Reads (' ' :: s) ls r) (hne : ls ≠ []) :
    g.Reads s ls r := by
  cases h with
  | done => exact absurd rfl hne
  | skip hskip hs => exact .skip hskip hs
  | leaf hleaf hs => exact .leaf hleaf hs

/-- Before a bracket or a connective nothing else is read. -/
theorem Reads.of_skip {ls : List Spec} (h : g.Reads s ls r) (hne : ls ≠ [])
    (hleaf : g.leaf s = none) (hskip : ∀ s', g.Skip s s' → s' = s₁) : g.Reads s₁ ls r := by
  cases h with
  | done => exact absurd rfl hne
  | skip hs h =>
    obtain rfl := hskip _ hs
    exact h
  | leaf hl h => rw [hleaf] at hl; cases hl

theorem leaf_none (h : g.readValue s = none) : g.leaf s = none := by
  simp only [leaf, compareLeaf, inLeaf, containsLeaf, nullLeaf, notNullLeaf, rangeLeaf, h,
    Option.bind_eq_bind, Option.bind_none, Option.or_none]

theorem readValue_bracket {c : Char} (hc : c = '(' ∨ c = ')') (s : Text) :
    g.readValue (c :: s) = none := by
  have hword : g.wordChar c = false := by
    rcases hc with rfl | rfl <;> exact g.delimiter _ (by decide)
  have hspace : isSpace c = false := by rcases hc with rfl | rfl <;> decide
  have hskip : skipWs (c :: s) = c :: s := by
    rw [skipWs, List.dropWhile_cons_of_neg (by simp [hspace])]
  have hquote : ∀ d ∈ (skipWs (c :: s)).head?, d ≠ '"' ∧ d ≠ '\'' := by
    intro d hd
    rw [hskip] at hd
    cases Option.mem_some_iff.mp hd
    rcases hc with rfl | rfl <;> decide
  rw [readValue_eq_readWord hquote, hskip, readWord, List.takeWhile_cons_of_neg (by simp [hword]),
    if_pos (.inl rfl)]

theorem Reads.of_open {ls : List Spec} (h : g.Reads ('(' :: s) ls r) (hne : ls ≠ []) :
    g.Reads s ls r := by
  refine h.of_skip hne (leaf_none (readValue_bracket (.inl rfl) s)) ?_
  rintro s' (⟨c, hc, hs⟩ | ⟨w, hw, hs⟩)
  · by_cases hopen : '(' = c
    · rw [← hopen, symbol_open] at hs
      exact (Option.some.inj hs).symm
    · rw [symbol_ne (by decide) hopen] at hs
      cases hs
  · rw [keyword_open (by rintro rfl; simp at hw)] at hs
    cases hs

theorem Reads.of_close {ls : List Spec} (h : g.Reads (')' :: s) ls r) (hne : ls ≠ []) :
    g.Reads s ls r := by
  refine h.of_skip hne (leaf_none (readValue_bracket (.inr rfl) s)) ?_
  rintro s' (⟨c, hc, hs⟩ | ⟨w, hw, hs⟩)
  · by_cases hclose : ')' = c
    · rw [← hclose, symbol_close] at hs
      exact (Option.some.inj hs).symm
    · rw [symbol_ne (by decide) hclose] at hs
      cases hs
  · rw [keyword_close (by rintro rfl; simp at hw)] at hs
    cases hs

/-- A connective and the space behind it are read. -/
theorem Reads.of_keyword {w : Text} (hw : w ∈ ["AND".toList, "OR".toList, "NOT".toList])
    {ls : List Spec} (h : g.Reads (w ++ ' ' :: s) ls r) (hne : ls ≠ []) : g.Reads s ls r := by
  have hspace := bounded_space g s
  have hletters : w.all Char.isAlpha = true ∧ w ≠ [] := by
    simp only [List.mem_cons, List.not_mem_nil, or_false] at hw
    rcases hw with rfl | rfl | rfl <;> decide
  have hreserved : g.reserved w = true :=
    g.connective w (List.mem_append_left ["IN".toList, "TO".toList] hw)
  have hnext : g.Reads (' ' :: s) ls r := by
    refine h.of_skip hne ?_ ?_
    · exact leaf_none (readValue_reserved hletters.1 hletters.2 hreserved hspace)
    · rintro s' (⟨c, hc, hs⟩ | ⟨v, hv, hs⟩)
      · obtain ⟨d, v, rfl⟩ := List.exists_cons_of_ne_nil hletters.2
        have hd := letters_word (g := g) hletters.1 d (List.mem_cons_self ..)
        have hcword : g.wordChar c = false := by
          refine g.delimiter c ?_
          simp only [List.mem_cons, List.not_mem_nil, or_false] at hc ⊢
          tauto
        have hne : d ≠ c := by
          rintro rfl
          simp [hd] at hcword
        rw [List.cons_append, symbol_ne (wordChar_not_space hd) hne] at hs
        cases hs
      · rw [keyword_word (letters_word hletters.1) hletters.2 hspace] at hs
        split at hs
        · exact (Option.some.inj hs).symm
        · cases hs
  exact hnext.of_space hne

theorem written_of_reads_atomic {l : Spec} (hatomic : Atomic l)
    (hfields : ∀ f ∈ l.fields, g.IsWord f) (hrest : Follows rest) {more : List Spec}
    (h : g.Reads (specToMeili l ++ rest) (l :: more) r) :
    g.Written l ∧ (more ≠ [] → g.Reads rest more r) := by
  obtain ⟨hkeyword, hsymbol⟩ := leaf_start hatomic hfields rest
  cases h with
  | skip hskip _ =>
    rcases hskip with ⟨c, hc, hs⟩ | ⟨w, hw, hs⟩
    · rw [hsymbol c hc] at hs
      cases hs
    · rw [hkeyword w hw] at hs
      cases hs
  | leaf hleaf hs =>
    obtain ⟨hl, rfl⟩ := written_of_leaf hfields hrest hleaf
    exact ⟨hl, fun _ => hs⟩

/-- Where the conditions of a predicate are read, they were written with faithful values, and the
reading goes on behind the predicate. -/
theorem written_of_reads {spec : Spec} (hfields : ∀ f ∈ spec.fields, g.IsWord f)
    (hrest : Follows rest) {more : List Spec}
    (h : g.Reads (specToMeili spec ++ rest) (spec.atoms ++ more) r) :
    g.Written spec ∧ (more ≠ [] → g.Reads rest more r) := by
  induction spec generalizing rest more with
  | and a b iha ihb =>
    rw [andText_eq] at h
    have hne : ∀ {s : Spec} {ls : List Spec}, s.atoms ++ ls ≠ [] := fun {s ls} heq =>
      s.atoms_ne_nil (List.append_eq_nil_iff.mp heq).1
    have hopen := h.of_open (by rw [Spec.atoms, List.append_assoc]; exact hne)
    rw [Spec.atoms, List.append_assoc] at hopen
    obtain ⟨ha, hafter⟩ := iha (fun f hf => hfields f (List.mem_append_left _ hf))
      (follows_word (w := "AND".toList) (by decide) (by decide) _) hopen
    have hright := ((hafter hne).of_space hne).of_keyword (by decide) hne
    obtain ⟨hb, hclose⟩ := ihb (fun f hf => hfields f (List.mem_append_right _ hf))
      (.close rest (.inl rfl)) hright
    exact ⟨⟨ha, hb⟩, fun hmore => (hclose hmore).of_close hmore⟩
  | or a b iha ihb =>
    rw [orText_eq] at h
    have hne : ∀ {s : Spec} {ls : List Spec}, s.atoms ++ ls ≠ [] := fun {s ls} heq =>
      s.atoms_ne_nil (List.append_eq_nil_iff.mp heq).1
    have hopen := h.of_open (by rw [Spec.atoms, List.append_assoc]; exact hne)
    rw [Spec.atoms, List.append_assoc] at hopen
    obtain ⟨ha, hafter⟩ := iha (fun f hf => hfields f (List.mem_append_left _ hf))
      (follows_word (w := "OR".toList) (by decide) (by decide) _) hopen
    have hright := ((hafter hne).of_space hne).of_keyword (by decide) hne
    obtain ⟨hb, hclose⟩ := ihb (fun f hf => hfields f (List.mem_append_right _ hf))
      (.close rest (.inl rfl)) hright
    exact ⟨⟨ha, hb⟩, fun hmore => (hclose hmore).of_close hmore⟩
  | not a ih =>
    have hne : a.atoms ++ more ≠ [] := fun heq =>
      a.atoms_ne_nil (List.append_eq_nil_iff.mp heq).1
    rw [notText_eq] at h
    have hopen := (h.of_keyword (by decide) hne).of_open hne
    obtain ⟨ha, hclose⟩ := ih hfields (.close rest (.inl rfl)) hopen
    exact ⟨ha, fun hmore => (hclose hmore).of_close hmore⟩
  | _ => exact written_of_reads_atomic (by trivial) hfields hrest h

theorem written_of_reads_intercalate {p : Spec} {ps : List Spec}
    (hfields : ∀ q ∈ p :: ps, ∀ f ∈ q.fields, g.IsWord f)
    (h : g.Reads (" AND ".toList.intercalate ((p :: ps).map specToMeili)) (Spec.conj p ps).atoms r) :
    ∀ q ∈ p :: ps, g.Written q := by
  induction ps generalizing p with
  | nil =>
    have htext : " AND ".toList.intercalate ([p].map specToMeili) = specToMeili p ++ [] := by
      simp [List.intercalate]
    have hatoms : (Spec.conj p []).atoms = p.atoms ++ [] := (List.append_nil _).symm
    rw [htext, hatoms] at h
    have hp := written_of_reads (hfields p (List.mem_singleton_self p)) .nil h
    exact List.forall_mem_singleton.mpr hp.1
  | cons q ps ih =>
    have hne := (Spec.conj q ps).atoms_ne_nil
    rw [intercalate_cons, Spec.conj, Spec.atoms] at h
    obtain ⟨hp, hafter⟩ := written_of_reads (hfields p (List.mem_cons_self ..))
      (follows_word (w := "AND".toList) (by decide) (by decide) _) h
    have hrest := ((hafter hne).of_space hne).of_keyword (by decide) hne
    have hps := ih (fun u hu => hfields u (List.mem_cons_of_mem p hu)) hrest
    exact List.forall_mem_cons.mpr ⟨hp, hps⟩

/-- The filter of the calls is read as all their predicates, and nothing else. -/
def FilterFaithful (g : MeiliGrammar) (calls : List QueryCall) : Prop :=
  (build calls).buildFilter.bind g.parse =
    Spec.conjunction (calls.filterMap QueryCall.predicate)

/-- A filter over the attributes of an index is faithful where every value is: a number is a word
of the grammar, the text of another value has no backslash that is lost or ends the string, and a
bound is a word. -/
theorem filterFaithful_iff (g : MeiliGrammar) (calls : List QueryCall)
    (hfields : ∀ s ∈ calls.filterMap QueryCall.predicate, ∀ f ∈ s.fields, g.IsWord f) :
    g.FilterFaithful calls ↔ ∀ s ∈ calls.filterMap QueryCall.predicate, g.Written s := by
  unfold FilterFaithful buildFilter
  rw [filters_build]
  cases hps : calls.filterMap QueryCall.predicate with
  | nil => simp [Spec.conjunction]
  | cons p ps =>
    rw [hps] at hfields
    rw [List.map_cons, List.isEmpty_cons, if_neg Bool.false_ne_true, ← List.map_cons,
      Option.bind_some, Spec.conjunction, parse, Option.bind_eq_bind]
    constructor
    · intro h
      obtain ⟨⟨t, rest⟩, hread, heq⟩ := Option.bind_eq_some_iff.mp h
      dsimp only at heq
      split at heq
      next =>
        obtain rfl := Option.some.inj heq
        exact written_of_reads_intercalate hfields (reads_of_parseAt hread)
      next => cases heq
    · intro hwritten
      have hread := parseAt_or (parseAt_intercalate hfields hwritten (Nat.lt_succ_of_le
        (Nat.le_add_right _ 6))) rfl
      rw [hread]
      rfl

/-- The grammar as it is documented, with a backslash kept that escapes nothing. -/
def documented : MeiliGrammar where
  wordChar c := c.isAlphanum || c = '_' || c = '-' || c = '/' || c = '.'
  reserved w := ["AND", "OR", "NOT", "IN", "TO", "EXISTS"].any fun k => k.toList = w
  keeps := true
  letter c h := by simp [Char.isAlphanum, h]
  delimiter := by
    simp only [List.mem_cons, List.not_mem_nil, or_false, forall_eq_or_imp, forall_eq]
    decide
  connective := by decide

instance (g : MeiliGrammar) (x : Text) : Decidable (g.IsWord x) :=
  decidable_of_iff (x ≠ [] ∧ x.all g.wordChar = true ∧ g.reserved x = false)
    ⟨fun h => ⟨h.1, List.all_eq_true.mp h.2.1, h.2.2⟩,
      fun h => ⟨h.nonempty, List.all_eq_true.mpr h.chars, h.free⟩⟩

theorem filterFaithful_documented :
    documented.FilterFaithful [.compare .eq "name".toList "C:\\dir \"x\"".toList,
      .between "price".toList "1".toList "2.5".toList, .spec (.not (.isNull "city".toList))] := by
  refine (filterFaithful_iff documented _ (by decide)).mpr ?_
  have hname : documented.Faithful "C:\\dir \"x\"".toList := by
    unfold Faithful
    rw [if_neg (by decide)]
    simp [Quotable, documented]
  have hprice : documented.IsWord "1".toList ∧ documented.IsWord "2.5".toList := by decide
  exact List.forall_mem_cons.mpr ⟨hname, List.forall_mem_cons.mpr ⟨hprice,
    List.forall_mem_singleton.mpr trivial⟩⟩

/-- A value that ends with a backslash takes the quote behind it along, and a bound may bring a
condition. -/
theorem not_filterFaithful :
    ¬ documented.FilterFaithful [.compare .eq "name".toList "\\".toList] ∧
    ¬ documented.FilterFaithful [.between "price".toList "1".toList "5 OR id > 0".toList] := by
  constructor
  · have hread : documented.parse "name = \"\\\"".toList = none := by rfl
    have htext : (build [.compare .eq "name".toList "\\".toList]).buildFilter =
        some "name = \"\\\"".toList := by decide
    rw [FilterFaithful, htext, Option.bind_some, hread]
    nofun
  · have hread : documented.parse "price 1 TO 5 OR id > 0".toList =
        some (.or (.between "price".toList "1".toList "5".toList)
          (.compare .gt "id".toList "0".toList)) := by rfl
    have htext : (build [.between "price".toList "1".toList "5 OR id > 0".toList]).buildFilter =
        some "price 1 TO 5 OR id > 0".toList := by decide
    rw [FilterFaithful, htext, Option.bind_some, hread]
    nofun

end MeiliGrammar

end Kernway
