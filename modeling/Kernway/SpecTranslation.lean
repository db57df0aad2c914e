import Kernway.SqliteQuery

namespace Kernway

variable {columns : List ColumnDef} {lib : Libraries}

section Translation

variable (columns lib) (cell : Text → SqlValue)

/-- The cell of a field in order with a value that a query compares it with. -/
def fieldOrder (f : Text) (value : SqlValue) : Option Ordering :=
  cellOrder columns lib cell (columnName columns f) value.bind

/-- The value of a predicate on a row, its cells compared with typed values. -/
def Spec.truth : Spec → Truth
  | .compare op f v => (fieldOrder columns lib cell f (filterValueForField columns f v)).map op.holds
  | .like f v => cellLike lib cell (columnName columns f) (.text v)
  | .in_ f vs => Truth.any (vs.map fun v =>
      (fieldOrder columns lib cell f (filterValueForField columns f v)).map CompareOp.eq.holds)
  | .between f lo hi =>
    Truth.and ((fieldOrder columns lib cell f (filterValueForField columns f lo)).map
        CompareOp.gte.holds)
      ((fieldOrder columns lib cell f (filterValueForField columns f hi)).map CompareOp.lte.holds)
  | .isNull f => some (cell (columnName columns f)).isNull
  | .isNotNull f => some !(cell (columnName columns f)).isNull
  | .and a b => a.truth.and b.truth
  | .or a b => a.truth.or b.truth
  | .not a => a.truth.not

theorem paramAt_pushed (params more : List SqlValue) (v : SqlValue) :
    paramAt (params ++ v :: more) (params.length + 1) = v.bind := by
  rw [paramAt, Nat.add_sub_cancel, List.getElem?_append_right (Nat.le_refl _), Nat.sub_self]
  rfl

theorem pushEach_spec (params vs : List SqlValue) :
    (pushEach params vs).2 = params ++ vs ∧
      ∀ (g : SqlValue → Truth) (more : List SqlValue),
        (pushEach params vs).1.map (fun k => g (paramAt (params ++ vs ++ more) k)) =
          vs.map fun v => g v.bind := by
  induction vs generalizing params with
  | nil => exact ⟨(List.append_nil params).symm, fun _ _ => rfl⟩
  | cons v vs ih =>
    obtain ⟨hpushed, hvalues⟩ := ih (params ++ [v])
    refine ⟨?_, fun g more => ?_⟩
    · rw [pushEach, hpushed, List.append_assoc]
      rfl
    · have hrest := hvalues g more
      rw [List.append_assoc params [v] vs] at hrest
      rw [pushEach, List.map_cons, List.map_cons]
      refine congrArg₂ List.cons ?_ hrest
      rw [List.append_assoc, List.cons_append, paramAt_pushed]

theorem specToSql_and (a b : Spec) (params : List SqlValue) :
    specToSql columns (.and a b) params =
      (.and (specToSql columns a params).1 (specToSql columns b (specToSql columns a params).2).1,
        (specToSql columns b (specToSql columns a params).2).2) := rfl

theorem specToSql_or (a b : Spec) (params : List SqlValue) :
    specToSql columns (.or a b) params =
      (.or (specToSql columns a params).1 (specToSql columns b (specToSql columns a params).2).1,
        (specToSql columns b (specToSql columns a params).2).2) := rfl

/-- Parameters are only pushed, and with them in place the expression has the predicate's value,
whatever is pushed behind. -/
theorem specToSql_spec (spec : Spec) (params : List SqlValue) :
    ∃ pushed, (specToSql columns spec params).2 = params ++ pushed ∧
      ∀ more, (specToSql columns spec params).1.eval columns lib cell (params ++ pushed ++ more) =
        spec.truth columns lib cell := by
  induction spec generalizing params with
  | compare op f v =>
    refine ⟨_, rfl, fun more => ?_⟩
    simp only [specToSql, SqlExpr.eval, Spec.truth, fieldOrder, List.length_append,
      List.length_singleton, List.append_assoc, List.singleton_append, paramAt_pushed]
  | like f v =>
    refine ⟨_, rfl, fun more => ?_⟩
    simp only [specToSql, SqlExpr.eval, Spec.truth, List.length_append,
      List.length_singleton, List.append_assoc, List.singleton_append, paramAt_pushed]
    rfl
  | in_ f vs =>
    obtain ⟨hpushed, hvalues⟩ := pushEach_spec params (vs.map (filterValueForField columns f))
    refine ⟨_, hpushed, fun more => ?_⟩
    have heach := hvalues (fun v =>
      (cellOrder columns lib cell (columnName columns f) v).map CompareOp.eq.holds) more
    rw [List.map_map] at heach
    exact congrArg Truth.any heach
  | between f lo hi =>
    refine ⟨[filterValueForField columns f lo, filterValueForField columns f hi],
      List.append_assoc .., fun more => ?_⟩
    have hlo := paramAt_pushed params (filterValueForField columns f hi :: more)
      (filterValueForField columns f lo)
    have hhi := paramAt_pushed (params ++ [filterValueForField columns f lo]) more
      (filterValueForField columns f hi)
    rw [List.length_append, List.length_singleton, List.append_assoc, List.singleton_append] at hhi
    simp only [specToSql, SqlExpr.eval, Spec.truth, fieldOrder, List.length_append,
      List.length_singleton, List.append_assoc, List.cons_append, List.nil_append, hlo]
    exact congrArg (fun v => Truth.and _ (Option.map CompareOp.lte.holds
      (cellOrder columns lib cell (columnName columns f) v))) hhi
  | isNull f => exact ⟨[], (List.append_nil params).symm, fun _ => rfl⟩
  | isNotNull f => exact ⟨[], (List.append_nil params).symm, fun _ => rfl⟩
  | and a b iha ihb =>
    obtain ⟨pushedA, ha, hevalA⟩ := iha params
    obtain ⟨pushedB, hb, hevalB⟩ := ihb (params ++ pushedA)
    refine ⟨pushedA ++ pushedB, ?_, fun more => ?_⟩
    · rw [specToSql_and, ha, hb, List.append_assoc]
    · rw [← List.append_assoc, specToSql_and, ha, SqlExpr.eval, Spec.truth, hevalB,
        List.append_assoc (params ++ pushedA), hevalA]
  | or a b iha ihb =>
    obtain ⟨pushedA, ha, hevalA⟩ := iha params
    obtain ⟨pushedB, hb, hevalB⟩ := ihb (params ++ pushedA)
    refine ⟨pushedA ++ pushedB, ?_, fun more => ?_⟩
    · rw [specToSql_or, ha, hb, List.append_assoc]
    · rw [← List.append_assoc, specToSql_or, ha, SqlExpr.eval, Spec.truth, hevalB,
        List.append_assoc (params ++ pushedA), hevalA]
  | not a ih =>
    obtain ⟨pushed, ha, heval⟩ := ih params
    exact ⟨pushed, ha, fun more => congrArg Truth.not (heval more)⟩

end Translation

/-- The typed comparison of a field's cell and the comparison of the field's text say `p` of the
same values. -/
def Row.Alike (row : Row columns lib) (p : Bool) (op : CompareOp) (f v : Text) : Prop :=
  Truth.Agrees p
    ((fieldOrder columns lib row.cell f (filterValueForField columns f v)).map op.holds)
    ((cmp (row.get f) v).any op.holds)

/-- Under an even number of negations (`p`) the leaves of a predicate hold of the cells of a row
where they hold of its fields, and under an odd number they fail of the cells where they fail of the
fields. -/
def Row.InStep (row : Row columns lib) : Bool → Spec → Prop
  | p, .compare op f v => row.Alike p op f v
  | p, .like f v => Truth.Agrees p (cellLike lib row.cell (columnName columns f) (.text v))
      ((row.get f).any fun c => containsText c v)
  | p, .in_ f vs => ∀ v ∈ vs, row.Alike p .eq f v
  | p, .between f lo hi => row.Alike p .gte f lo ∧ row.Alike p .lte f hi
  | _, .isNull f | _, .isNotNull f =>
    (row.cell (columnName columns f)).isNull = (row.get f).all List.isEmpty
  | p, .and a b | p, .or a b => row.InStep p a ∧ row.InStep p b
  | p, .not a => row.InStep (!p) a

section Columns

variable {row : Row columns lib} {c : ColumnDef} {f : Text}

theorem columnForField_mem (h : columnForField columns f = some c) : c ∈ columns :=
  List.mem_of_find?_eq_some h

theorem columnName_eq (h : columnForField columns f = some c) : columnName columns f = c.name := by
  rw [columnName, h]

theorem affinityOf_eq (hnames : (columns.map ColumnDef.name).Nodup) (hc : c ∈ columns) :
    affinityOf columns c.name = c.colType.affinity := by
  have hfound : columns.find? (fun d => d.name == c.name) = some c := by
    obtain ⟨before, after, rfl⟩ := List.append_of_mem hc
    rw [List.map_append, List.map_cons, List.nodup_append] at hnames
    rw [List.find?_append, List.find?_cons_of_pos (by simp), Option.or_eq_some_iff]
    refine .inr ⟨List.find?_eq_none.mpr fun d hd heq => ?_, rfl⟩
    exact hnames.2.2 d.name (List.mem_map_of_mem hd) c.name List.mem_cons_self
      (eq_of_beq heq)
  rw [affinityOf, hfound]

/-- On a cell that is `NULL` a comparison is in step under an even number of negations only. -/
theorem Row.alike_null (hcolumn : columnForField columns f = some c) (hfield : c.field = f)
    (hcell : row.cell c.name = .null) (p : Bool) (op : CompareOp) (v : Text) :
    row.Alike p op f v ↔ p = true := by
  have hget : row.get f = none := by
    have hshows := row.shows c (columnForField_mem hcolumn)
    rw [hcell, hfield] at hshows
    exact hshows
  have horder : fieldOrder columns lib row.cell f (filterValueForField columns f v) = none := by
    rw [fieldOrder, columnName_eq hcolumn, cellOrder, hcell]
    rfl
  rw [Row.Alike, horder, hget, Option.map_none, Truth.agrees_none]
  cases p <;> simp [cmp]

/-- A text column is in step with a value that is no number. -/
theorem Row.alike_text (hnames : (columns.map ColumnDef.name).Nodup)
    (hcolumn : columnForField columns f = some c) (hfield : c.field = f)
    (htype : c.colType = .text) {s v : Text} (hcell : row.cell c.name = .text s)
    (hv : parseF64 v = none) (p : Bool) (op : CompareOp) : row.Alike p op f v := by
  have hc := columnForField_mem hcolumn
  have hget : row.get f = some s := by
    have hshows := row.shows c hc
    rw [hcell, hfield] at hshows
    rw [hshows, htype]
    rfl
  have hvalue : filterValueForField columns f v = .text v := by
    rw [filterValueForField, hcolumn]
    dsimp only
    rw [htype]
  have horder : fieldOrder columns lib row.cell f (filterValueForField columns f v) =
      some (compareText s v) := by
    rw [fieldOrder, columnName_eq hcolumn, cellOrder, hcell, hvalue, affinityOf_eq hnames hc, htype]
    rfl
  have hcmp : cmp (row.get f) v = some (compareText s v) := by
    rw [hget, cmp, hv]
    cases parseF64 s <;> rfl
  rw [Row.Alike, horder, hcmp]
  exact Truth.agrees_some.mpr rfl

/-- A column of finite reals is in step with every value that is a number. -/
theorem Row.alike_float (hnames : (columns.map ColumnDef.name).Nodup)
    (hcolumn : columnForField columns f = some c) (hfield : c.field = f)
    (htype : c.colType = .float) {q : Rat} (hcell : row.cell c.name = .real (.finite q))
    {v : Text} {x : F64} (hv : parseF64 v = some x) (hx : x ≠ .nan) (p : Bool) (op : CompareOp) :
    row.Alike p op f v := by
  have hc := columnForField_mem hcolumn
  obtain ⟨s, hget, hs⟩ : ∃ s, row.get f = some s ∧ parseF64 s = some (.finite q) := by
    have hshows := row.shows c hc
    rw [hcell, hfield] at hshows
    exact hshows
  have hvalue : filterValueForField columns f v = .real x := by
    rw [filterValueForField, hcolumn]
    dsimp only
    rw [htype]
    dsimp only
    rw [hv]
  have hbind : (SqlValue.real x).bind = .real x := by
    cases x with
    | nan => exact absurd rfl hx
    | inf negative => rfl
    | finite q => rfl
  have horder : fieldOrder columns lib row.cell f (filterValueForField columns f v) =
      (F64.finite q).partialCmp x := by
    rw [fieldOrder, columnName_eq hcolumn, cellOrder, hcell, hvalue, hbind, affinityOf_eq hnames hc,
      htype]
    rfl
  have hcmp : cmp (row.get f) v = (F64.finite q).partialCmp x := by
    rw [hget, cmp]
    rw [hs, hv]
  rw [Row.Alike, horder, hcmp]
  cases x with
  | nan => exact absurd rfl hx
  | inf negative => exact Truth.agrees_some.mpr rfl
  | finite r => exact Truth.agrees_some.mpr rfl

end Columns

theorem matches_isNull (get : Text → Option Text) (f : Text) :
    (Spec.isNull f).matches get = (get f).all List.isEmpty := by
  unfold Spec.matches
  cases get f <;> rfl

theorem matches_isNotNull (get : Text → Option Text) (f : Text) :
    (Spec.isNotNull f).matches get = !(get f).all List.isEmpty := by
  unfold Spec.matches
  cases get f <;> rfl

theorem Row.InStep.agrees {row : Row columns lib} {spec : Spec} {p : Bool}
    (h : row.InStep p spec) :
    Truth.Agrees p (spec.truth columns lib row.cell) (spec.matches row.get) := by
  induction spec generalizing p with
  | compare op f v => exact h
  | like f v => exact h
  | in_ f vs => exact Truth.Agrees.any h
  | between f lo hi => exact Truth.Agrees.and h.1 h.2
  | isNull f =>
    rw [matches_isNull, ← show _ = _ from h]
    exact Truth.agrees_some.mpr rfl
  | isNotNull f =>
    rw [matches_isNotNull, ← show _ = _ from h]
    exact Truth.agrees_some.mpr rfl
  | and a b iha ihb => exact (iha h.1).and (ihb h.2)
  | or a b iha ihb => exact (iha h.1).or (ihb h.2)
  | not a ih => exact Truth.agrees_not.mpr (ih h)

/-- A comparison, a pattern or a test for `NULL`. -/
def Spec.IsAtom : Spec → Prop
  | .compare _ _ _ | .like _ _ | .isNull _ | .isNotNull _ => True
  | _ => False

theorem Spec.IsAtom.inStep {row : Row columns lib} {spec : Spec} {p : Bool} (hatom : spec.IsAtom)
    (h : Truth.Agrees p (spec.truth columns lib row.cell) (spec.matches row.get)) :
    row.InStep p spec := by
  cases spec with
  | compare op f v => exact h
  | like f v => exact h
  | isNull f =>
    rw [matches_isNull] at h
    exact Truth.agrees_some.mp h
  | isNotNull f =>
    rw [matches_isNotNull] at h
    exact Bool.not_inj (Truth.agrees_some.mp h)
  | in_ f vs => exact hatom.elim
  | between f lo hi => exact hatom.elim
  | and a b => exact hatom.elim
  | or a b => exact hatom.elim
  | not a => exact hatom.elim

theorem fetchSpec_eq {spec : Spec} (hvalid : validateSpec columns spec = true)
    (rows : List (Row columns lib)) : fetchSpec columns lib spec rows =
      some (rows.filter fun row => spec.truth columns lib row.cell == some true) := by
  rw [fetchSpec, if_pos hvalid]
  refine congrArg some (List.filter_congr fun row _ => ?_)
  obtain ⟨pushed, hparams, heval⟩ := specToSql_spec columns lib row.cell spec []
  have hvalue := heval []
  rw [List.append_nil, ← hparams] at hvalue
  exact congrArg (· == some true) hvalue

theorem fetchSpec_singleton {spec : Spec} {row : Row columns lib}
    (hvalid : validateSpec columns spec = true)
    (h : fetchSpec columns lib spec [row] = some ([row].filter fun row => spec.matches row.get)) :
    Truth.Agrees true (spec.truth columns lib row.cell) (spec.matches row.get) := by
  rw [fetchSpec_eq hvalid] at h
  have hmem := congrArg (row ∈ ·) (Option.some.inj h)
  simp only [List.mem_filter, List.mem_singleton, true_and, beq_iff_eq] at hmem
  exact Iff.of_eq hmem

/-- On a table whose rows are in step with a predicate, SQLite selects the rows that the predicate
matches; and a comparison, pattern or test for `NULL`, negated or not, selects as it matches only
on the rows that are in step with it. -/
theorem fetchSpec_matching :
    (∀ (spec : Spec) (rows : List (Row columns lib)), validateSpec columns spec = true →
      (∀ row ∈ rows, row.InStep true spec) →
      fetchSpec columns lib spec rows = some (rows.filter fun row => spec.matches row.get)) ∧
    (∀ (spec : Spec) (row : Row columns lib), spec.IsAtom → validateSpec columns spec = true →
      (fetchSpec columns lib spec [row] = some ([row].filter fun row => spec.matches row.get) →
        row.InStep true spec) ∧
      (fetchSpec columns lib (.not spec) [row] =
          some ([row].filter fun row => spec.not.matches row.get) →
        row.InStep true (.not spec))) := by
  constructor
  · intro spec rows hvalid hrows
    rw [fetchSpec_eq hvalid]
    refine congrArg some (List.filter_congr fun row hrow => ?_)
    have hagrees := (hrows row hrow).agrees
    unfold Truth.Agrees at hagrees
    rw [Bool.eq_iff_iff, beq_iff_eq, hagrees]
  · intro spec row hatom hvalid
    constructor
    · exact fun heq => hatom.inStep (fetchSpec_singleton hvalid heq)
    · intro heq
      have hagrees : Truth.Agrees true (spec.not.truth columns lib row.cell)
          (spec.not.matches row.get) := fetchSpec_singleton hvalid heq
      exact hatom.inStep (Truth.agrees_not.mp hagrees)

/-- A row of one text column. -/
def textRow (lib : Libraries) (name value : Text) : Row [⟨name, name, .text⟩] lib where
  cell _ := .text value
  get f := if f = name then some value else none
  shows c hc := by
    obtain rfl := List.mem_singleton.mp hc
    simp [Shows]

def plainLibraries : Libraries := ⟨fun _ => none, fun _ => [], some⟩

/-- A product searched by a word of its name is not found. -/
theorem not_fetchSpec_matching : ¬ ∀ (columns : List ColumnDef) (lib : Libraries) (spec : Spec)
    (rows : List (Row columns lib)), validateSpec columns spec = true →
    fetchSpec columns lib spec rows = some (rows.filter fun row => spec.matches row.get) := by
  intro h
  have hdrill := h _ plainLibraries (.like "name".toList "Drill".toList)
    [textRow _ "name".toList "Electric Drill".toList] (by decide)
  have hcount := congrArg (Option.map List.length) hdrill
  exact absurd hcount (by decide)

theorem fetchSpec_matching_negation :
    fetchSpec [⟨"tier".toList, "tier".toList, .text⟩] plainLibraries
        (.not (.eq "tier".toList "gold".toList)) [textRow _ "tier".toList "silver".toList] =
      some ([textRow _ "tier".toList "silver".toList].filter fun row =>
        (Spec.not (.eq "tier".toList "gold".toList)).matches row.get) :=
  fetchSpec_matching.1 _ _ (by decide) fun row hrow => by
    obtain rfl := List.mem_singleton.mp hrow
    exact iff_of_true (by decide) (by decide)

end Kernway
