import Kernway.SqliteText

namespace Kernway

variable {entity : EntityTable}

/-- Pieces of no other text than SQL's and the entity's. -/
def Clean (entity : EntityTable) (tokens : List SqlToken) : Prop := ∀ t ∈ tokens, t.Allowed entity

namespace Clean

variable {s t : List SqlToken}

theorem nil : Clean entity [] := fun _ h => nomatch h

theorem cons {x : SqlToken} (hx : x.Allowed entity) (h : Clean entity t) : Clean entity (x :: t) :=
  List.forall_mem_cons.mpr ⟨hx, h⟩

theorem literal {word : Text} (hword : word ∈ SqlToken.literals) (h : Clean entity t) :
    Clean entity (.literal word :: t) := cons hword h

theorem append (hs : Clean entity s) (ht : Clean entity t) : Clean entity (s ++ t) :=
  List.forall_mem_append.mpr ⟨hs, ht⟩

theorem join {sep : Text} {parts : List (List SqlToken)} (hsep : sep ∈ SqlToken.literals)
    (h : ∀ part ∈ parts, Clean entity part) : Clean entity (joinTokens sep parts) := by
  intro token htoken
  obtain rfl | ⟨part, hpart, hin⟩ := mem_joinTokens htoken
  · exact hsep
  · exact h part hpart token hin

end Clean

def EntityTable.columnNames (entity : EntityTable) : List Text := entity.columns.map ColumnDef.name

/-- A field that is a column. -/
def EntityTable.HasField (entity : EntityTable) (field : Text) : Prop :=
  (columnForField entity.columns field).isSome

theorem columnName_mem {field : Text} (h : entity.HasField field) :
    columnName entity.columns field ∈ entity.columnNames := by
  obtain ⟨c, hc⟩ := Option.isSome_iff_exists.mp h
  rw [columnName, hc]
  exact List.mem_map_of_mem (List.mem_of_find?_eq_some hc)

theorem CompareOp.infixText_mem (op : CompareOp) : op.infixText ∈ SqlToken.literals := by
  cases op <;> decide

/-- The columns that an expression names. -/
def SqlExpr.cols : SqlExpr → List Text
  | compare _ col _ | like col _ | isIn col _ | between col _ _ | isNull col | isNotNull col =>
    [col]
  | and a b | or a b => a.cols ++ b.cols
  | not a => a.cols

theorem SqlExpr.clean {e : SqlExpr} (h : ∀ col ∈ e.cols, col ∈ entity.columnNames) :
    Clean entity e.tokens := by
  have hname : ∀ {col : Text}, (∀ c ∈ [col], c ∈ entity.columnNames) →
      SqlToken.Allowed entity (.name col) := fun h => .inr (h _ (List.mem_singleton_self _))
  have hclose : Clean entity [.literal ")".toList] := .literal (by decide) .nil
  induction e with
  | compare op col k => exact .cons (hname h) (.literal op.infixText_mem (.cons trivial .nil))
  | like col k => exact .cons (hname h) (.literal (by decide) (.cons trivial .nil))
  | isIn col ks =>
    have hlist : Clean entity (joinTokens ", ".toList (ks.map fun k => [.placeholder k])) := by
      refine .join (by decide) fun part hpart => ?_
      obtain ⟨k, -, rfl⟩ := List.mem_map.mp hpart
      exact .cons trivial .nil
    exact .append (.append (.cons (hname h) (.literal (by decide) .nil)) hlist) hclose
  | between col a b =>
    refine .cons (hname h) (.literal (by decide) (.cons trivial ?_))
    exact .literal (by decide) (.cons trivial .nil)
  | isNull col => exact .cons (hname h) (.literal (by decide) .nil)
  | isNotNull col => exact .cons (hname h) (.literal (by decide) .nil)
  | and a b iha ihb =>
    obtain ⟨ha, hb⟩ := List.forall_mem_append.mp h
    exact .append (.append (.literal (by decide) (iha ha)) (.literal (by decide) (ihb hb))) hclose
  | or a b iha ihb =>
    obtain ⟨ha, hb⟩ := List.forall_mem_append.mp h
    exact .append (.append (.literal (by decide) (iha ha)) (.literal (by decide) (ihb hb))) hclose
  | not a iha => exact .append (.literal (by decide) (iha h)) hclose

/-- The expression of a predicate names the columns of its fields. -/
theorem specToSql_cols (columns : List ColumnDef) (spec : Spec) (params : List SqlValue) :
    (specToSql columns spec params).1.cols = spec.fields.map (columnName columns) := by
  induction spec generalizing params with
  | and a b iha ihb => simp only [specToSql, SqlExpr.cols, Spec.fields, List.map_append, iha, ihb]
  | or a b iha ihb => simp only [specToSql, SqlExpr.cols, Spec.fields, List.map_append, iha, ihb]
  | not a iha => simp only [specToSql, SqlExpr.cols, Spec.fields, iha]
  | _ => rfl

def Filter.col : Filter → Text
  | compare _ col _ | like col _ | in_ col _ | between col _ _ | isNull col | isNotNull col => col

/-- The fields that a call names. -/
def QueryCall.fields : QueryCall → List Text
  | compare _ f _ | like f _ | in_ f _ | between f _ _ | isNull f | isNotNull f | orderByAsc f
  | orderByDesc f => [f]
  | spec s => s.fields
  | limit _ | offset _ | with_ _ => []

namespace SqliteQueryBuilder

/-- A builder that names nothing but columns; of its predicate this holds as long as there is no
error. -/
structure Resolved (entity : EntityTable) (b : SqliteQueryBuilder) : Prop where
  filters : ∀ filter ∈ b.filters, filter.col ∈ entity.columnNames
  order : ∀ part ∈ b.order, part.1 ∈ entity.columnNames
  spec : b.error = none → ∀ s ∈ b.spec, ∀ f ∈ s.fields, entity.HasField f

variable {b : SqliteQueryBuilder}

/-- A field resolves to its column, or leaves an error. -/
theorem resolveCol_cases (entity : EntityTable) (b : SqliteQueryBuilder) (f : Text) :
    (entity.HasField f ∧ ∃ col ∈ entity.columnNames, b.resolveCol entity f = (b, some col)) ∨
      (¬ entity.HasField f ∧ b.resolveCol entity f =
        ({ b with error := b.error.or (some (unknownField entity f)) }, none)) := by
  unfold resolveCol EntityTable.HasField
  cases h : columnForField entity.columns f with
  | some c =>
    refine .inl ⟨rfl, c.name, ?_, rfl⟩
    exact List.mem_map_of_mem (List.mem_of_find?_eq_some h)
  | none => exact .inr ⟨nofun, rfl⟩

theorem validateSpec_eq (entity : EntityTable) (spec : Spec) (b : SqliteQueryBuilder) :
    b.validateSpec entity spec = spec.fields.foldl (fun b f => (b.resolveCol entity f).1) b := by
  induction spec generalizing b with
  | and x y ihx ihy => rw [validateSpec, Spec.fields, List.foldl_append, ihx, ihy]
  | or x y ihx ihy => rw [validateSpec, Spec.fields, List.foldl_append, ihx, ihy]
  | not x ih => rw [validateSpec, Spec.fields, ih]
  | _ => rfl

/-- Looking fields up changes the error alone, which stays the first one. -/
theorem resolveAll_spec (entity : EntityTable) (fs : List Text) (b : SqliteQueryBuilder) :
    ∃ error, fs.foldl (fun b f => (b.resolveCol entity f).1) b = { b with error := error } ∧
      (b.error.isSome → error.isSome) ∧
      (error = none ↔ b.error = none ∧ ∀ f ∈ fs, entity.HasField f) := by
  induction fs generalizing b with
  | nil => exact ⟨b.error, rfl, id, by simp⟩
  | cons f fs ih =>
    rw [List.foldl_cons]
    obtain ⟨hf, col, -, heq⟩ | ⟨hf, heq⟩ := resolveCol_cases entity b f
    · obtain ⟨error, hfold, hkept, hnone⟩ := ih b
      rw [heq]
      exact ⟨error, hfold, hkept, by simp [hnone, hf]⟩
    · obtain ⟨error, hfold, hkept, hnone⟩ :=
        ih { b with error := b.error.or (some (unknownField entity f)) }
      rw [heq]
      refine ⟨error, hfold, fun h => hkept (by simp), ?_⟩
      rw [hnone]
      simp [hf]

/-- A flat filter of a field that is a column names that column; any other leaves an error. -/
theorem pushFilter_cases (entity : EntityTable) (b : SqliteQueryBuilder) (f : Text)
    (filter : Text → Filter) :
    (entity.HasField f ∧ ∃ col ∈ entity.columnNames,
      b.pushFilter entity f filter = { b with filters := b.filters ++ [filter col] }) ∨
      (¬ entity.HasField f ∧ b.pushFilter entity f filter =
        { b with error := b.error.or (some (unknownField entity f)) }) := by
  unfold pushFilter
  obtain ⟨hf, col, hcol, heq⟩ | ⟨hf, heq⟩ := resolveCol_cases entity b f
  · rw [heq]
    exact .inl ⟨hf, col, hcol, rfl⟩
  · rw [heq]
    exact .inr ⟨hf, rfl⟩

theorem pushOrder_cases (entity : EntityTable) (b : SqliteQueryBuilder) (f : Text) (dir : SortDir) :
    (entity.HasField f ∧ ∃ col ∈ entity.columnNames,
      b.pushOrder entity f dir = { b with order := b.order ++ [(col, dir)] }) ∨
      (¬ entity.HasField f ∧ b.pushOrder entity f dir =
        { b with error := b.error.or (some (unknownField entity f)) }) := by
  unfold pushOrder
  obtain ⟨hf, col, hcol, heq⟩ | ⟨hf, heq⟩ := resolveCol_cases entity b f
  · rw [heq]
    exact .inl ⟨hf, col, hcol, rfl⟩
  · rw [heq]
    exact .inr ⟨hf, rfl⟩

/-- What a call does to the error: it stays, and a field that is no column leaves one. -/
structure Reports (entity : EntityTable) (b b' : SqliteQueryBuilder) (fields : List Text) :
    Prop where
  kept : b.error.isSome → b'.error.isSome
  unknown : ∀ f ∈ fields, ¬ entity.HasField f → b'.error.isSome

theorem Reports.same {b' : SqliteQueryBuilder} (h : b'.error = b.error) :
    Reports entity b b' [] := ⟨fun hb => h ▸ hb, nofun⟩

theorem pushFilter_spec (hb : b.Resolved entity) (f : Text) {filter : Text → Filter}
    (hcol : ∀ col, (filter col).col = col) :
    (b.pushFilter entity f filter).Resolved entity ∧
      Reports entity b (b.pushFilter entity f filter) [f] := by
  obtain ⟨hf, col, hmem, heq⟩ | ⟨hf, heq⟩ := pushFilter_cases entity b f filter
  · rw [heq]
    refine ⟨⟨?_, hb.order, hb.spec⟩, id, by simp [hf]⟩
    refine List.forall_mem_append.mpr ⟨hb.filters, ?_⟩
    simpa [hcol] using hmem
  · rw [heq]
    exact ⟨⟨hb.filters, hb.order, by simp⟩, by simp, by simp⟩

theorem pushOrder_spec (hb : b.Resolved entity) (f : Text) (dir : SortDir) :
    (b.pushOrder entity f dir).Resolved entity ∧
      Reports entity b (b.pushOrder entity f dir) [f] := by
  obtain ⟨hf, col, hmem, heq⟩ | ⟨hf, heq⟩ := pushOrder_cases entity b f dir
  · rw [heq]
    refine ⟨⟨hb.filters, ?_, hb.spec⟩, id, by simp [hf]⟩
    refine List.forall_mem_append.mpr ⟨hb.order, ?_⟩
    simpa using hmem
  · rw [heq]
    exact ⟨⟨hb.filters, hb.order, by simp⟩, by simp, by simp⟩

theorem call_spec (hb : b.Resolved entity) (c : QueryCall) :
    (b.call entity c).Resolved entity ∧ Reports entity b (b.call entity c) c.fields := by
  cases c with
  | compare op f v => exact pushFilter_spec hb f fun _ => rfl
  | like f pattern => exact pushFilter_spec hb f fun _ => rfl
  | in_ f vs => exact pushFilter_spec hb f fun _ => rfl
  | between f lo hi => exact pushFilter_spec hb f fun _ => rfl
  | isNull f => exact pushFilter_spec hb f fun _ => rfl
  | isNotNull f => exact pushFilter_spec hb f fun _ => rfl
  | spec s =>
    obtain ⟨error, heq, hkept, hnone⟩ := resolveAll_spec entity s.fields b
    rw [← validateSpec_eq] at heq
    simp only [call, heq]
    refine ⟨⟨hb.filters, hb.order, ?_⟩, hkept, fun f hf hfield => ?_⟩
    · intro herror s' hs'
      obtain rfl := Option.mem_some_iff.mp hs'
      exact (hnone.mp herror).2
    · refine Option.isSome_iff_ne_none.mpr fun herror => ?_
      exact hfield ((hnone.mp herror).2 f hf)
  | orderByAsc f => exact pushOrder_spec hb f .asc
  | orderByDesc f => exact pushOrder_spec hb f .desc
  | limit n => exact ⟨⟨hb.filters, hb.order, hb.spec⟩, .same rfl⟩
  | offset n => exact ⟨⟨hb.filters, hb.order, hb.spec⟩, .same rfl⟩
  | with_ relation => exact ⟨hb, .same rfl⟩

/-- Any number of calls leaves a resolved builder, whose error tells of every unknown field. -/
theorem calls_spec (hb : b.Resolved entity) (calls : List QueryCall) :
    (calls.foldl (call entity) b).Resolved entity ∧
      Reports entity b (calls.foldl (call entity) b) (calls.flatMap QueryCall.fields) := by
  induction calls generalizing b with
  | nil => exact ⟨hb, .same rfl⟩
  | cons c calls ih =>
    obtain ⟨hcall, hreports⟩ := call_spec hb c
    obtain ⟨hrest, hlater⟩ := ih hcall
    refine ⟨hrest, fun h => hlater.kept (hreports.kept h), fun f hf hfield => ?_⟩
    rcases List.mem_append.mp hf with hf | hf
    · exact hlater.kept (hreports.unknown f hf hfield)
    · exact hlater.unknown f hf hfield

theorem resolved_new (entity : EntityTable) : ({} : SqliteQueryBuilder).Resolved entity :=
  ⟨by simp, by simp, by simp⟩

theorem build_resolved (entity : EntityTable) (calls : List QueryCall) :
    (build entity calls).Resolved entity :=
  (calls_spec (resolved_new entity) calls).1

theorem build_error {calls : List QueryCall} {c : QueryCall} (hc : c ∈ calls) {f : Text}
    (hf : f ∈ c.fields) (hfield : ¬ entity.HasField f) : (build entity calls).error.isSome :=
  (calls_spec (resolved_new entity) calls).2.unknown f (List.mem_flatMap.mpr ⟨c, hc, hf⟩) hfield

theorem condition_clean {filter : Filter} (h : filter.col ∈ entity.columnNames)
    (params : List SqlValue) : Clean entity (condition params filter).1.tokens := by
  have hcols : ∀ e : SqlExpr, e.cols = [filter.col] → Clean entity e.tokens := fun e he =>
    e.clean (by simpa [he] using h)
  cases filter with
  | in_ col vals =>
    simp only [condition]
    split
    · exact .literal (by decide) .nil
    · exact hcols _ rfl
  | _ => exact hcols _ rfl

theorem flatConditions_clean {filters : List Filter}
    (h : ∀ filter ∈ filters, filter.col ∈ entity.columnNames) (params : List SqlValue) :
    ∀ c ∈ (flatConditions params filters).1, Clean entity c.tokens := by
  induction filters generalizing params with
  | nil => exact nofun
  | cons filter filters ih =>
    obtain ⟨hfilter, hrest⟩ := List.forall_mem_cons.mp h
    exact List.forall_mem_cons.mpr ⟨condition_clean hfilter params, ih hrest _⟩

theorem whereTokens_clean (hb : b.Resolved entity) (herror : b.error = none) :
    Clean entity (b.whereTokens entity) := by
  have hflat := flatConditions_clean hb.filters []
  have hall : ∀ c ∈ (b.conditions entity).1, Clean entity c.tokens := by
    have hspec := hb.spec herror
    unfold conditions
    cases hs : b.spec with
    | none => exact hflat
    | some s =>
      refine List.forall_mem_append.mpr ⟨hflat, fun c hc => ?_⟩
      rw [List.mem_singleton.mp hc]
      refine SqlExpr.clean fun col hcol => ?_
      rw [specToSql_cols] at hcol
      obtain ⟨f, hf, rfl⟩ := List.mem_map.mp hcol
      exact columnName_mem (hspec s hs f hf)
  unfold whereTokens
  split
  · exact .nil
  · refine .literal (by decide) (.join (by decide) fun part hpart => ?_)
    obtain ⟨c, hc, rfl⟩ := List.mem_map.mp hpart
    exact hall c hc

theorem orderTokens_clean (hb : b.Resolved entity) : Clean entity b.orderTokens := by
  unfold orderTokens
  split
  · exact .nil
  · refine .literal (by decide) (.join (by decide) fun part hpart => ?_)
    obtain ⟨⟨col, dir⟩, hmem, rfl⟩ := List.mem_map.mp hpart
    have hcol := hb.order _ hmem
    cases dir <;> exact .cons (.inr hcol) (.literal (by decide) .nil)

theorem countTokens_clean (hb : b.Resolved entity) (herror : b.error = none) :
    Clean entity (b.countTokens entity) :=
  .literal (by decide) (.cons (.inl rfl) (whereTokens_clean hb herror))

theorem selectTokens_clean (hb : b.Resolved entity) (herror : b.error = none) :
    Clean entity (b.selectTokens entity) := by
  have hcolumns : Clean entity (joinTokens ", ".toList (entity.columns.map fun c =>
      [.name c.name])) := by
    refine .join (by decide) fun part hpart => ?_
    obtain ⟨c, hc, rfl⟩ := List.mem_map.mp hpart
    exact .cons (.inr (List.mem_map_of_mem hc)) .nil
  have hlimit : Clean entity b.limitTokens := by
    unfold limitTokens
    split
    · exact .literal (by decide) (.cons trivial .nil)
    · exact .nil
  have hoffset : Clean entity b.offsetTokens := by
    unfold offsetTokens
    split
    · exact .literal (by decide) (.cons trivial .nil)
    · exact .nil
  refine .append (.append (.append (.append (.literal (by decide) hcolumns) ?_)
    (orderTokens_clean hb)) hlimit) hoffset
  exact .literal (by decide) (.cons (.inl rfl) (whereTokens_clean hb herror))

end SqliteQueryBuilder

end Kernway
