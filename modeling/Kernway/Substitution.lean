import Mathlib.Data.List.Basic
import Mathlib.Data.List.Infix
import Mathlib.Tactic.Common

namespace Kernway.Substitution

variable {α : Type}

/-- A character of a template, or of a value that was put into it, or the place of a value. -/
inductive Cell (α : Type)
  | own (c : α)
  | put (c : α)
  | gap
  deriving DecidableEq

def Cell.char : Cell α → Option α
  | .own c => some c
  | .put c => some c
  | .gap => none

abbrev Cells (α : Type) := List (Cell α)

def text (cells : Cells α) : List α := cells.filterMap Cell.char

def value (v : List α) : Cells α := .gap :: v.map .put

def template (s : List α) : Cells α := s.map .own

/-- Wherever a pattern stands in the text, it stands in the template's own characters. -/
def Own (p : List α) : Cells α → Prop
  | [] => True
  | .gap :: cells => Own p cells
  | cell :: cells => (p <+: text (cell :: cells) → template p <+: cell :: cells) ∧ Own p cells

theorem text_append (cells cells' : Cells α) : text (cells ++ cells') = text cells ++ text cells' :=
  List.filterMap_append

theorem text_value (v : List α) : text (value v) = v := by
  show (v.map Cell.put).filterMap Cell.char = v
  rw [List.filterMap_map]
  exact List.filterMap_some

theorem text_template (s : List α) : text (template s) = s := by
  unfold text template
  rw [List.filterMap_map]
  exact List.filterMap_some

theorem template_ne_nil {p : List α} (hp : p ≠ []) : template p ≠ [] := by
  unfold template
  rwa [Ne, List.map_eq_nil_iff]

theorem Own.suffix {p : List α} {front cells : Cells α} (h : Own p (front ++ cells)) : Own p cells := by
  induction front with
  | nil => exact h
  | cons cell front ih =>
    cases cell with
    | gap => exact ih h
    | own c => exact ih h.2
    | put c => exact ih h.2

/-- A pattern stands in the text where it stands in the template's own characters. -/
theorem Own.occurs_iff {p : List α} (hp : p ≠ []) {cells : Cells α} (h : Own p cells) :
    p <:+: text cells ↔ template p <:+: cells := by
  constructor
  · intro hin
    induction cells with
    | nil => exact absurd (List.infix_nil.mp hin) hp
    | cons cell cells ih =>
      have hvisible : ∀ c, cell.char = some c →
          (p <+: text (cell :: cells) → template p <+: cell :: cells) → Own p cells →
          template p <:+: cell :: cells := by
        intro c hchar hhere hrest
        have htext : text (cell :: cells) = c :: text cells := List.filterMap_cons_some hchar
        rw [htext] at hin hhere
        rcases List.infix_cons_iff.mp hin with hpre | hin
        · exact (hhere hpre).isInfix
        · exact List.infix_cons (ih hrest hin)
      cases cell with
      | gap => exact List.infix_cons (ih h hin)
      | own c => exact hvisible c rfl h.1 h.2
      | put c => exact hvisible c rfl h.1 h.2
  · rintro ⟨front, behind, rfl⟩
    rw [text_append, text_append, text_template]
    exact List.infix_append _ _ _

/-- A pattern that stands in the text is the text of some cells. -/
theorem split_text {p : List α} {cells : Cells α} (h : p <+: text cells) :
    ∃ front behind, cells = front ++ behind ∧ text front = p := by
  induction cells generalizing p with
  | nil => exact ⟨[], [], rfl, (List.prefix_nil.mp h).symm⟩
  | cons cell cells ih =>
    have hcons : ∀ {q : List α}, q <+: text cells → ∃ front behind,
        cell :: cells = cell :: front ++ behind ∧ text (cell :: front) = text [cell] ++ q := by
      intro q hq
      obtain ⟨front, behind, rfl, rfl⟩ := ih hq
      exact ⟨front, behind, rfl, text_append [cell] front⟩
    cases hchar : cell.char with
    | none =>
      have htext : ∀ cells, text (cell :: cells) = text cells :=
        fun _ => List.filterMap_cons_none hchar
      rw [htext] at h
      obtain ⟨front, behind, hsplit, hfront⟩ := hcons h
      exact ⟨cell :: front, behind, hsplit, hfront.trans (by rw [htext]; rfl)⟩
    | some c =>
      have htext : ∀ cells, text (cell :: cells) = c :: text cells :=
        fun _ => List.filterMap_cons_some hchar
      rw [htext] at h
      cases p with
      | nil => exact ⟨[], cell :: cells, rfl, rfl⟩
      | cons d p =>
        obtain ⟨rfl, hp⟩ := List.cons_prefix_cons.mp h
        obtain ⟨front, behind, hsplit, hfront⟩ := hcons hp
        exact ⟨cell :: front, behind, hsplit, hfront.trans (by rw [htext]; rfl)⟩

/-- Behind a pattern in a template's own characters, what follows decides. -/
theorem own_append {c : α} {p : List α} (hc : c ∉ p) {cells : Cells α} (h : Own (c :: p) cells) :
    Own (c :: p) (template (c :: p) ++ cells) := by
  have hbehind : ∀ front : List α, (∀ d ∈ front, d ≠ c) → Own (c :: p) (template front ++ cells) := by
    intro front hfront
    induction front with
    | nil => exact h
    | cons d front ih =>
      refine ⟨fun hpre => ?_, ih fun e he => hfront e (List.mem_cons_of_mem d he)⟩
      exact absurd (List.cons_prefix_cons.mp hpre).1.symm (hfront d (List.mem_cons_self ..))
  refine ⟨fun _ => List.prefix_append _ _, hbehind p ?_⟩
  rintro d hd rfl
  exact hc hd

/-- Cells, the text with a pattern's own places filled, and the text with all its places replaced. -/
inductive Scanned (p v : List α) : Cells α → List α → List α → Prop
  | done : Scanned p v [] [] []
  | passed {cell : Cell α} {cells : Cells α} {filled replaced : List α}
      (hown : Own p cells → Own p (cell :: cells)) (hrest : Scanned p v cells filled replaced) :
      Scanned p v (cell :: cells) (text [cell] ++ filled) (text [cell] ++ replaced)
  | placed {cells : Cells α} {filled replaced : List α} (hrest : Scanned p v cells filled replaced) :
      Scanned p v (template p ++ cells) (v ++ filled) (v ++ replaced)
  | mixed {front cells : Cells α} {filled replaced : List α} (hfront : text front = p)
      (hrest : Scanned p v cells filled replaced) :
      Scanned p v (front ++ cells) (p ++ filled) (v ++ replaced)

/-- A text in which more places are replaced is the shorter one where the value is shorter. -/
theorem Scanned.length {p v : List α} {cells : Cells α} {filled replaced : List α}
    (h : Scanned p v cells filled replaced) :
    (v.length ≤ p.length → replaced.length ≤ filled.length) ∧
      (p.length ≤ v.length → filled.length ≤ replaced.length) := by
  induction h with
  | done => exact ⟨fun _ => Nat.le_refl _, fun _ => Nat.le_refl _⟩
  | passed _ _ ih =>
    simp only [List.length_append]
    exact ⟨fun hle => Nat.add_le_add_left (ih.1 hle) _, fun hle => Nat.add_le_add_left (ih.2 hle) _⟩
  | placed _ ih =>
    simp only [List.length_append]
    exact ⟨fun hle => Nat.add_le_add_left (ih.1 hle) _, fun hle => Nat.add_le_add_left (ih.2 hle) _⟩
  | mixed _ _ ih =>
    simp only [List.length_append]
    exact ⟨fun hle => Nat.add_le_add hle (ih.1 hle), fun hle => Nat.add_le_add hle (ih.2 hle)⟩

theorem Scanned.own {c : α} {p : List α} (hc : c ∉ p) {v : List α} (hv : v ≠ c :: p) {cells : Cells α}
    {filled replaced : List α} (h : Scanned (c :: p) v cells filled replaced)
    (heq : filled = replaced) : Own (c :: p) cells := by
  induction h with
  | done => trivial
  | passed hown _ ih => exact hown (ih (List.append_cancel_left heq))
  | placed _ ih => exact own_append hc (ih (List.append_cancel_left heq))
  | mixed _ hrest _ =>
    exfalso
    have hlength := hrest.length
    have htotal := congrArg List.length heq
    simp only [List.length_append] at htotal
    have hsame : v.length = (c :: p).length := by
      rcases Nat.le_total v.length (c :: p).length with hle | hle
      · have hrest' := hlength.1 hle
        omega
      · have hrest' := hlength.2 hle
        omega
    exact hv (List.append_inj_left heq.symm hsame)

theorem Scanned.self {p : List α} {cells : Cells α} {filled replaced : List α}
    (h : Scanned p p cells filled replaced) : filled = replaced := by
  induction h with
  | done => rfl
  | passed _ _ ih => rw [ih]
  | placed _ ih => rw [ih]
  | mixed _ _ ih => rw [ih]

section

variable [DecidableEq α]

instance Own.decidable (p : List α) : (cells : Cells α) → Decidable (Own p cells)
  | [] => .isTrue trivial
  | .gap :: cells => Own.decidable p cells
  | .own _ :: cells | .put _ :: cells => @instDecidableAnd _ _ _ (Own.decidable p cells)

/-- Each place of a pattern in a text, from the left, with a value put there. -/
@[semireducible] def replaceAll (pat new s : List α) : List α :=
  match s with
  | [] => []
  | c :: s =>
    if pat.isPrefixOf (c :: s) then new ++ replaceAll pat new (s.drop (pat.length - 1))
    else c :: replaceAll pat new s
termination_by s.length
decreasing_by all_goals simp only [List.length_drop, List.length_cons]; omega

/-- A value put where a pattern stands in a template's own characters, next to each other there. -/
def fill (p v : List α) (cells : Cells α) : Cells α := replaceAll (template p) (value v) cells

/-- One pass from the left: the first pattern of the table that stands at a place gives its value
there. -/
@[semireducible] def each (table : List (List α × List α)) (s : List α) : Cells α :=
  match s with
  | [] => []
  | c :: s =>
    match table.find? fun entry => entry.1.isPrefixOf (c :: s) with
    | some entry => value entry.2 ++ each table (s.drop (entry.1.length - 1))
    | none => .own c :: each table s
termination_by s.length
decreasing_by all_goals simp only [List.length_drop, List.length_cons]; omega

theorem replaceAll_nil (p v : List α) : replaceAll p v [] = [] := by
  rw [replaceAll]

theorem replaceAll_cons_of_not {p : List α} {c : α} {s : List α} (v : List α) (h : ¬ p <+: c :: s) :
    replaceAll p v (c :: s) = c :: replaceAll p v s := by
  rw [replaceAll, if_neg (by rwa [List.isPrefixOf_iff_prefix])]

theorem replaceAll_append {p : List α} (hp : p ≠ []) (v s : List α) :
    replaceAll p v (p ++ s) = v ++ replaceAll p v s := by
  cases p with
  | nil => exact absurd rfl hp
  | cons c p =>
    have hpre : (c :: p).isPrefixOf (c :: (p ++ s)) = true :=
      List.isPrefixOf_iff_prefix.mpr (List.prefix_append (c :: p) s)
    rw [List.cons_append, replaceAll, if_pos hpre]
    congr 2
    exact List.drop_left

/-- What does not begin the pattern is left as it is. -/
theorem replaceAll_skip {c : α} {p skipped : List α} (v s : List α) (h : ∀ d ∈ skipped, d ≠ c) :
    replaceAll (c :: p) v (skipped ++ s) = skipped ++ replaceAll (c :: p) v s := by
  induction skipped with
  | nil => rfl
  | cons d skipped ih =>
    have hnot : ¬ c :: p <+: d :: (skipped ++ s) := by
      intro hpre
      exact h d (List.mem_cons_self ..) (List.cons_prefix_cons.mp hpre).1.symm
    rw [List.cons_append, replaceAll_cons_of_not v hnot,
      ih fun e he => h e (List.mem_cons_of_mem d he), List.cons_append]

theorem fill_append {p : List α} (hp : p ≠ []) (v : List α) (cells : Cells α) :
    text (fill p v (template p ++ cells)) = v ++ text (fill p v cells) := by
  unfold fill
  rw [replaceAll_append (template_ne_nil hp), text_append, text_value]

theorem fill_gap {p : List α} (hp : p ≠ []) (v : List α) (cells : Cells α) :
    fill p v (.gap :: cells) = .gap :: fill p v cells := by
  apply replaceAll_cons_of_not
  obtain ⟨c, p, rfl⟩ := List.exists_cons_of_ne_nil hp
  intro hpre
  cases (List.cons_prefix_cons.mp hpre).1

/-- Where a pattern stands in a template's own characters only, its places in the text are filled. -/
theorem text_fill {p : List α} (hp : p ≠ []) (v : List α) {cells : Cells α} (h : Own p cells) :
    text (fill p v cells) = replaceAll p v (text cells) := by
  induction hlength : cells.length using Nat.strong_induction_on generalizing cells with
  | _ n ih =>
    subst hlength
    have hvisible : ∀ (cell : Cell α) (rest : Cells α) (c : α), cells = cell :: rest →
        cell.char = some c →
        (p <+: text (cell :: rest) → template p <+: cell :: rest) →
        text (fill p v cells) = replaceAll p v (text cells) := by
      intro cell rest c hcells hchar himp
      have htext : text (cell :: rest) = c :: text rest := List.filterMap_cons_some hchar
      by_cases hpre : template p <+: cell :: rest
      · obtain ⟨behind, hbehind⟩ := hpre
        have hlt : behind.length < cells.length := by
          have hpos := List.length_pos_of_ne_nil (template_ne_nil hp)
          rw [hcells, ← hbehind, List.length_append]
          omega
        have hown : Own p behind := by
          rw [hcells, ← hbehind] at h
          exact h.suffix
        rw [hcells, ← hbehind, fill_append hp, text_append, text_template, replaceAll_append hp,
          ih behind.length hlt hown rfl]
      · have hnot : ¬ p <+: c :: text rest := by
          rw [← htext]
          exact fun hp => hpre (himp hp)
        have hown : Own p rest := by
          rw [hcells] at h
          exact @Own.suffix _ _ [cell] _ h
        have hlt : rest.length < cells.length := by
          rw [hcells]
          exact Nat.lt_succ_self _
        rw [hcells, htext, replaceAll_cons_of_not v hnot, ← ih rest.length hlt hown rfl, fill,
          replaceAll_cons_of_not _ hpre]
        exact List.filterMap_cons_some hchar
    cases cells with
    | nil =>
      unfold fill
      rw [replaceAll_nil]
      exact (replaceAll_nil p v).symm
    | cons cell rest =>
      cases cell with
      | gap =>
        rw [fill_gap hp]
        exact ih rest.length (Nat.lt_succ_self _) h rfl
      | own c => exact hvisible _ rest c rfl rfl h.1
      | put c => exact hvisible _ rest c rfl rfl h.1

section Exact

variable {c : α} {p : List α}

/-- A pattern that stands in the text, but not in the template's own characters, is left by `fill`
and replaced in the text. -/
theorem fill_mixed (hc : c ∉ p) (v : List α) {cell : Cell α} {front cells : Cells α}
    (hchar : cell.char = some c) (hfront : text front = p)
    (hmixed : ¬ template (c :: p) <+: cell :: (front ++ cells)) :
    text (fill (c :: p) v (cell :: (front ++ cells))) = c :: p ++ text (fill (c :: p) v cells) := by
  have hskip : ∀ d ∈ front, d ≠ .own c := by
    rintro _ hd rfl
    apply hc
    rw [← hfront]
    exact List.mem_filterMap.mpr ⟨_, hd, rfl⟩
  have hleft : fill (c :: p) v (cell :: (front ++ cells)) =
      cell :: (front ++ fill (c :: p) v cells) := by
    unfold fill
    rw [replaceAll_cons_of_not _ hmixed]
    exact congrArg _ (replaceAll_skip _ _ hskip)
  rw [hleft]
  show (cell :: (front ++ fill (c :: p) v cells)).filterMap Cell.char = _
  rw [List.filterMap_cons_some hchar, List.filterMap_append]
  show c :: (text front ++ _) = _
  rw [hfront]
  rfl

theorem scanned (hc : c ∉ p) (v : List α) (cells : Cells α) :
    Scanned (c :: p) v cells (text (fill (c :: p) v cells)) (replaceAll (c :: p) v (text cells)) := by
  have hne := List.cons_ne_nil c p
  induction hlength : cells.length using Nat.strong_induction_on generalizing cells with
  | _ n ih =>
    subst hlength
    cases cells with
    | nil =>
      have hnil : text (fill (c :: p) v []) = [] := by
        unfold fill
        rw [replaceAll_nil]
        rfl
      rw [hnil]
      show Scanned (c :: p) v [] [] (replaceAll (c :: p) v [])
      rw [replaceAll_nil]
      exact .done
    | cons cell cells =>
      cases hchar : cell.char with
      | none =>
        have hgap : cell = .gap := by
          cases cell with
          | gap => rfl
          | own d => cases hchar
          | put d => cases hchar
        subst hgap
        rw [fill_gap hne]
        exact .passed id (ih cells.length (Nat.lt_succ_self _) cells rfl)
      | some d =>
        have htext : ∀ cells, text (cell :: cells) = d :: text cells :=
          fun _ => List.filterMap_cons_some hchar
        by_cases hpre : template (c :: p) <+: cell :: cells
        · obtain ⟨behind, hbehind⟩ := hpre
          have hlt : behind.length < (cell :: cells).length := by
            rw [← hbehind, List.length_append]
            exact Nat.lt_add_of_pos_left (List.length_pos_of_ne_nil (template_ne_nil hne))
          rw [← hbehind, fill_append hne, text_append, text_template, replaceAll_append hne]
          exact .placed (ih behind.length hlt behind rfl)
        · by_cases hin : c :: p <+: text (cell :: cells)
          · rw [htext] at hin
            obtain ⟨rfl, hp⟩ := List.cons_prefix_cons.mp hin
            obtain ⟨front, behind, rfl, hfront⟩ := split_text hp
            have hlt : behind.length < (cell :: (front ++ behind)).length := by
              rw [List.length_cons, List.length_append]
              omega
            have hfront' : text (cell :: front) = c :: p := by rw [htext, hfront]
            have hsplit : text (cell :: (front ++ behind)) = c :: p ++ text behind := by
              rw [← hfront', ← text_append]
              rfl
            rw [fill_mixed hc v hchar hfront hpre, hsplit, replaceAll_append hne]
            exact .mixed hfront' (ih behind.length hlt behind rfl)
          · have hnot := hin
            rw [htext] at hnot
            have hfill : text (fill (c :: p) v (cell :: cells)) =
                text [cell] ++ text (fill (c :: p) v cells) := by
              unfold fill
              rw [replaceAll_cons_of_not _ hpre]
              exact text_append [cell] _
            have hreplaced : replaceAll (c :: p) v (text (cell :: cells)) =
                text [cell] ++ replaceAll (c :: p) v (text cells) := by
              rw [htext cells, replaceAll_cons_of_not v hnot]
              exact congrArg (· ++ replaceAll (c :: p) v (text cells)) (htext []).symm
            rw [hfill, hreplaced]
            refine .passed (fun hown => ?_) (ih cells.length (Nat.lt_succ_self _) cells rfl)
            cases cell with
            | gap => cases hchar
            | own e => exact ⟨fun h => absurd h hin, hown⟩
            | put e => exact ⟨fun h => absurd h hin, hown⟩

/-- The places in the text are the template's own exactly where replacing all of them does what
filling these does, or the value is the pattern itself. -/
theorem text_fill_iff (hc : c ∉ p) (v : List α) (cells : Cells α) :
    text (fill (c :: p) v cells) = replaceAll (c :: p) v (text cells) ↔
      v = c :: p ∨ Own (c :: p) cells := by
  have hscanned := scanned hc v cells
  constructor
  · intro heq
    by_cases hv : v = c :: p
    · exact .inl hv
    · exact .inr (hscanned.own hc hv heq)
  · rintro (rfl | hown)
    · exact hscanned.self
    · exact text_fill (List.cons_ne_nil c p) v hown

end Exact

theorem prefix_of_each {table : List (List α × List α)} {p s : List α}
    (h : template p <+: each table s) : p <+: s := by
  induction s generalizing p with
  | nil =>
    rw [each] at h
    have hnil : p = [] := by
      have hmap := List.prefix_nil.mp h
      exact List.map_eq_nil_iff.mp hmap
    rw [hnil]
  | cons d s ih =>
    cases p with
    | nil => exact List.nil_prefix
    | cons c p =>
      rw [each] at h
      split at h
      next => cases (List.cons_prefix_cons.mp h).1
      next =>
        obtain ⟨hd, hp⟩ := List.cons_prefix_cons.mp h
        cases hd
        exact List.cons_prefix_cons.mpr ⟨rfl, ih hp⟩

section Each

variable {c : α} {p : List α} {table : List (List α × List α)}
  (htable : ∀ entry ∈ table, entry.1.head? = some c)

include htable

theorem each_skip {skipped : List α} (s : List α) (h : ∀ d ∈ skipped, d ≠ c) :
    each table (skipped ++ s) = template skipped ++ each table s := by
  induction skipped with
  | nil => rfl
  | cons d skipped ih =>
    have hnone : (table.find? fun entry => entry.1.isPrefixOf (d :: (skipped ++ s))) = none := by
      apply List.find?_eq_none.mpr
      intro entry hentry hpre
      obtain ⟨q, hq⟩ := List.head?_eq_some_iff.mp (htable entry hentry)
      rw [hq, List.isPrefixOf_iff_prefix] at hpre
      exact h d (List.mem_cons_self ..) (List.cons_prefix_cons.mp hpre).1.symm
    rw [List.cons_append, each, hnone]
    exact congrArg _ (ih fun e he => h e (List.mem_cons_of_mem d he))

/-- One more pattern in the pass puts its value where the others have left the template. -/
theorem fill_each (hc : c ∉ p) (v s : List α) :
    fill (c :: p) v (each table s) = each (table ++ [(c :: p, v)]) s := by
  have hne := List.cons_ne_nil c p
  induction hlength : s.length using Nat.strong_induction_on generalizing s with
  | _ n ih =>
    subst hlength
    cases s with
    | nil =>
      rw [each, each]
      exact replaceAll_nil _ _
    | cons d s =>
      have hfind : (table ++ [(c :: p, v)]).find? (fun entry => entry.1.isPrefixOf (d :: s)) =
          (table.find? fun entry => entry.1.isPrefixOf (d :: s)).or
            (if (c :: p).isPrefixOf (d :: s) then some (c :: p, v) else none) := by
        rw [List.find?_append, List.find?_singleton]
      cases htake : table.find? fun entry => entry.1.isPrefixOf (d :: s) with
      | some entry =>
        have hlt : (s.drop (entry.1.length - 1)).length < (d :: s).length := by
          rw [List.length_drop, List.length_cons]
          omega
        have hvalue : ∀ cell ∈ value entry.2, cell ≠ .own c := by
          rintro _ hcell rfl
          rcases List.mem_cons.mp hcell with h | h
          · cases h
          · obtain ⟨_, _, h⟩ := List.mem_map.mp h
            cases h
        rw [htake] at hfind
        rw [each, each, htake, hfind]
        show fill (c :: p) v (value entry.2 ++ each table (s.drop (entry.1.length - 1))) =
          value entry.2 ++ each (table ++ [(c :: p, v)]) (s.drop (entry.1.length - 1))
        rw [← ih _ hlt _ rfl]
        exact replaceAll_skip _ _ hvalue
      | none =>
        rw [htake, Option.none_or] at hfind
        by_cases hpre : c :: p <+: d :: s
        · obtain ⟨rfl, behind, rfl⟩ : c = d ∧ ∃ behind, p ++ behind = s := List.cons_prefix_cons.mp hpre
          have hlt : behind.length < (c :: (p ++ behind)).length := by
            rw [List.length_cons, List.length_append]
            omega
          have hskip : each table (c :: (p ++ behind)) = template (c :: p) ++ each table behind := by
            rw [each, htake]
            exact congrArg _ (each_skip htable behind fun e he h => hc (h ▸ he))
          rw [if_pos (List.isPrefixOf_iff_prefix.mpr hpre)] at hfind
          have hdrop : (p ++ behind).drop ((c :: p).length - 1) = behind := List.drop_left
          rw [hskip, fill, replaceAll_append (template_ne_nil hne), each, hfind]
          show value v ++ fill (c :: p) v (each table behind) =
            value v ++ each (table ++ [(c :: p, v)]) ((p ++ behind).drop ((c :: p).length - 1))
          rw [hdrop, ih _ hlt _ rfl]
        · rw [if_neg (by rwa [List.isPrefixOf_iff_prefix])] at hfind
          have hleft : each table (d :: s) = .own d :: each table s := by
            rw [each, htake]
          have hnot : ¬ template (c :: p) <+: .own d :: each table s := by
            rw [← hleft]
            exact fun h => hpre (prefix_of_each h)
          rw [hleft, fill, replaceAll_cons_of_not _ hnot, each, hfind]
          exact congrArg _ (ih _ (Nat.lt_succ_self _) _ rfl)

end Each

end

end Kernway.Substitution
