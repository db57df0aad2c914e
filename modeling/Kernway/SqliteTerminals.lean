import Kernway.SqliteStatements

namespace Kernway

/-- A predicate without its values. -/
def Spec.shape : Spec → Spec
  | .compare op f _ => .compare op f []
  | .like f _ => .like f []
  | .in_ f vs => .in_ f (vs.map fun _ => [])
  | .between f _ _ => .between f [] []
  | .isNull f => .isNull f
  | .isNotNull f => .isNotNull f
  | .and a b => .and a.shape b.shape
  | .or a b => .or a.shape b.shape
  | .not a => .not a.shape

/-- A call without its values. -/
def QueryCall.shape : QueryCall → QueryCall
  | compare op f _ => compare op f []
  | like f _ => like f []
  | in_ f vs => in_ f (vs.map fun _ => [])
  | between f _ _ => between f [] []
  | spec s => spec s.shape
  | c => c

def Filter.shape : Filter → Filter
  | compare op col _ => compare op col .null
  | like col _ => like col []
  | in_ col vals => in_ col (vals.map fun _ => .null)
  | between col _ _ => between col .null .null
  | filter => filter

theorem Spec.fields_shape (s : Spec) : s.shape.fields = s.fields := by
  induction s with
  | and a b iha ihb => rw [shape, fields, iha, ihb, fields]
  | or a b iha ihb => rw [shape, fields, iha, ihb, fields]
  | not a ih => rw [shape, fields, ih, fields]
  | _ => rfl

theorem Filter.shape_shape (filter : Filter) : filter.shape.shape = filter.shape := by
  cases filter <;> simp [shape]

theorem Spec.shape_shape (s : Spec) : s.shape.shape = s.shape := by
  induction s with
  | and a b iha ihb => rw [shape, shape, iha, ihb]
  | or a b iha ihb => rw [shape, shape, iha, ihb]
  | not a ih => rw [shape, shape, ih]
  | _ => simp [shape]

theorem pushEach_shape {params params' : List SqlValue} (h : params.length = params'.length)
    (vs vs' : List SqlValue) (hvs : vs.length = vs'.length) :
    (pushEach params vs).1 = (pushEach params' vs').1 ∧
      (pushEach params vs).2.length = (pushEach params' vs').2.length := by
  induction vs generalizing params params' vs' with
  | nil =>
    cases vs' with
    | nil => exact ⟨rfl, h⟩
    | cons v' vs' => simp at hvs
  | cons v vs ih =>
    cases vs' with
    | nil => simp at hvs
    | cons v' vs' =>
      have hlen : (params ++ [v]).length = (params' ++ [v']).length := by simp [h]
      obtain ⟨hks, hpushed⟩ := ih hlen vs' (by simpa using hvs)
      exact ⟨by simp only [pushEach, hks, h], hpushed⟩

/-- The expression of a predicate is that of its shape. -/
theorem specToSql_shape (columns : List ColumnDef) (spec : Spec) {params params' : List SqlValue}
    (h : params.length = params'.length) :
    (specToSql columns spec params).1 = (specToSql columns spec.shape params').1 ∧
      (specToSql columns spec params).2.length =
        (specToSql columns spec.shape params').2.length := by
  induction spec generalizing params params' with
  | in_ f vs =>
    obtain ⟨hks, hlen⟩ := pushEach_shape h (vs.map (filterValueForField columns f))
      ((vs.map fun _ => []).map (filterValueForField columns f)) (by simp)
    simp only [specToSql, Spec.shape]
    exact ⟨by rw [hks], hlen⟩
  | and a b iha ihb =>
    obtain ⟨ha, hlena⟩ := iha h
    obtain ⟨hb, hlenb⟩ := ihb hlena
    simp only [specToSql, Spec.shape]
    exact ⟨by rw [ha, hb], hlenb⟩
  | or a b iha ihb =>
    obtain ⟨ha, hlena⟩ := iha h
    obtain ⟨hb, hlenb⟩ := ihb hlena
    simp only [specToSql, Spec.shape]
    exact ⟨by rw [ha, hb], hlenb⟩
  | not a ih =>
    obtain ⟨ha, hlen⟩ := ih h
    simp only [specToSql, Spec.shape]
    exact ⟨by rw [ha], hlen⟩
  | _ => simp [specToSql, Spec.shape, h]

namespace SqliteQueryBuilder

variable {entity : EntityTable} {b b' : SqliteQueryBuilder}

/-- A builder without its values. -/
def shape (b : SqliteQueryBuilder) : SqliteQueryBuilder :=
  { b with filters := b.filters.map Filter.shape, spec := b.spec.map Spec.shape }

theorem shape_shape (b : SqliteQueryBuilder) : b.shape.shape = b.shape := by
  simp [shape, Filter.shape_shape, Spec.shape_shape, Function.comp_def]

theorem pushFilter_shape (entity : EntityTable) (b : SqliteQueryBuilder) (f : Text)
    {filter filter' : Text → Filter} (h : ∀ col, (filter col).shape = (filter' col).shape) :
    (b.pushFilter entity f filter).shape = (b.shape.pushFilter entity f filter').shape := by
  unfold pushFilter resolveCol
  cases columnForField entity.columns f with
  | none => simp [shape, Filter.shape_shape, Spec.shape_shape, Function.comp_def]
  | some c => simp [shape, h, Filter.shape_shape, Spec.shape_shape, Function.comp_def]

theorem pushOrder_shape (entity : EntityTable) (b : SqliteQueryBuilder) (f : Text) (dir : SortDir) :
    (b.pushOrder entity f dir).shape = (b.shape.pushOrder entity f dir).shape := by
  unfold pushOrder resolveCol
  cases columnForField entity.columns f <;>
    simp [shape, Filter.shape_shape, Spec.shape_shape, Function.comp_def]

theorem resolveAll_shape (entity : EntityTable) (fs : List Text) (b : SqliteQueryBuilder) :
    (fs.foldl (fun b f => (b.resolveCol entity f).1) b.shape) =
      (fs.foldl (fun b f => (b.resolveCol entity f).1) b).shape := by
  induction fs generalizing b with
  | nil => rfl
  | cons f fs ih =>
    rw [List.foldl_cons, List.foldl_cons, ← ih]
    congr 1
    unfold resolveCol
    cases columnForField entity.columns f <;> rfl

theorem call_shape (entity : EntityTable) (b : SqliteQueryBuilder) (c : QueryCall) :
    (b.call entity c).shape = (b.shape.call entity c.shape).shape := by
  cases c with
  | compare op f v => exact pushFilter_shape entity b f fun _ => rfl
  | like f pattern => exact pushFilter_shape entity b f fun _ => rfl
  | in_ f vs =>
    refine pushFilter_shape entity b f fun _ => ?_
    simp [Filter.shape, Function.comp_def]
  | between f lo hi => exact pushFilter_shape entity b f fun _ => rfl
  | isNull f => exact pushFilter_shape entity b f fun _ => rfl
  | isNotNull f => exact pushFilter_shape entity b f fun _ => rfl
  | spec s =>
    simp only [call, QueryCall.shape, validateSpec_eq, Spec.fields_shape, resolveAll_shape]
    simp [shape, Filter.shape_shape, Spec.shape_shape]
  | orderByAsc f => exact pushOrder_shape entity b f .asc
  | orderByDesc f => exact pushOrder_shape entity b f .desc
  | limit n =>
    have hsame : b.shape.shape = b.shape := b.shape_shape
    exact congrArg (fun b : SqliteQueryBuilder => { b with lim := some n }) hsame.symm
  | offset n =>
    have hsame : b.shape.shape = b.shape := b.shape_shape
    exact congrArg (fun b : SqliteQueryBuilder => { b with off := n }) hsame.symm
  | with_ relation => exact b.shape_shape.symm

/-- Calls of one shape make builders of one shape. -/
theorem calls_shape (hb : b.shape = b'.shape) {calls calls' : List QueryCall}
    (h : calls.map QueryCall.shape = calls'.map QueryCall.shape) :
    (calls.foldl (call entity) b).shape = (calls'.foldl (call entity) b').shape := by
  induction calls generalizing b b' calls' with
  | nil =>
    obtain rfl := List.map_eq_nil_iff.mp h.symm
    exact hb
  | cons c calls ih =>
    obtain ⟨c', calls', rfl, hc, hcalls⟩ := List.map_eq_cons_iff.mp h.symm
    rw [List.foldl_cons, List.foldl_cons]
    refine ih ?_ hcalls.symm
    rw [call_shape, call_shape entity b', hb, hc]

theorem condition_shape {params params' : List SqlValue} (h : params.length = params'.length)
    (filter : Filter) :
    (condition params filter).1 = (condition params' filter.shape).1 ∧
      (condition params filter).2.length = (condition params' filter.shape).2.length := by
  cases filter with
  | in_ col vals => cases vals <;> simp [condition, Filter.shape, h]
  | _ => simp [condition, Filter.shape, h]

theorem flatConditions_shape {params params' : List SqlValue} (h : params.length = params'.length)
    (filters : List Filter) :
    (flatConditions params filters).1 =
        (flatConditions params' (filters.map Filter.shape)).1 ∧
      (flatConditions params filters).2.length =
        (flatConditions params' (filters.map Filter.shape)).2.length := by
  induction filters generalizing params params' with
  | nil => exact ⟨rfl, h⟩
  | cons filter filters ih =>
    obtain ⟨hpart, hlen⟩ := condition_shape h filter
    obtain ⟨hparts, hpushed⟩ := ih hlen
    simp only [flatConditions, List.map_cons]
    exact ⟨by rw [hpart, hparts], hpushed⟩

theorem conditions_shape (entity : EntityTable) (b : SqliteQueryBuilder) :
    (b.conditions entity).1 = (b.shape.conditions entity).1 := by
  obtain ⟨hparts, hlen⟩ := flatConditions_shape (Eq.refl ([] : List SqlValue).length) b.filters
  unfold conditions
  cases hs : b.spec with
  | none => simpa [shape, hs] using hparts
  | some s =>
    have hspec := (specToSql_shape entity.columns s hlen).1
    simp only [shape, hs, Option.map_some]
    rw [hparts, hspec]

theorem whereTokens_shape (entity : EntityTable) (b : SqliteQueryBuilder) :
    b.whereTokens entity = b.shape.whereTokens entity := by
  rw [whereTokens, whereTokens, conditions_shape]

/-- The text of a statement does not depend on the values. -/
theorem buildSelectQuery_shape (entity : EntityTable) (b : SqliteQueryBuilder) :
    (b.buildSelectQuery entity).1 = (b.shape.buildSelectQuery entity).1 := by
  rw [buildSelectQuery_eq, buildSelectQuery_eq, selectTokens, whereTokens_shape]
  rfl

theorem buildCountQuery_shape (entity : EntityTable) (b : SqliteQueryBuilder) :
    (b.buildCountQuery entity).1 = (b.shape.buildCountQuery entity).1 := by
  rw [buildCountQuery_eq, buildCountQuery_eq, countTokens, whereTokens_shape]
  rfl

end SqliteQueryBuilder

inductive Terminal
  | all
  | one
  | count
  | page (index size : UInt64)

namespace Terminal

open SqliteQueryBuilder

variable {T : Type}

/-- A terminal operation, its answer aside. -/
def run (entity : EntityTable) (conn : SqliteConnection T) (b : SqliteQueryBuilder) :
    Terminal → Ran Unit
  | all => (b.fetchAll entity conn).map fun _ => ()
  | one => (b.fetchOne entity conn).map fun _ => ()
  | count => (b.fetchCount entity conn).map fun _ => ()
  | page index size => (b.fetchPage entity conn index size).map fun _ => ()

/-- The statements that a terminal operation builds, whatever the connection answers. -/
def built (entity : EntityTable) (b : SqliteQueryBuilder) (t : Terminal) :
    List (Text × List SqlValue) :=
  if b.error.isSome then []
  else match t with
    | all => [b.buildSelectQuery entity]
    | one => [{ b with lim := some 1 }.buildSelectQuery entity]
    | count => [b.buildCountQuery entity]
    | page index size => b.buildCountQuery entity ::
      if size = 0 then []
      else [{ b with off := saturatingMul index size, lim := some size }.buildSelectQuery entity]

theorem built_shape (entity : EntityTable) (b : SqliteQueryBuilder) (t : Terminal) :
    (t.built entity b).map Prod.fst = (t.built entity b.shape).map Prod.fst := by
  have herror : b.shape.error = b.error := rfl
  unfold built
  rw [herror]
  split
  · rfl
  · cases t with
    | all => simp only [List.map_cons, List.map_nil, b.buildSelectQuery_shape]
    | one =>
      rw [List.map_singleton, List.map_singleton, buildSelectQuery_shape]
      rfl
    | count => simp only [List.map_cons, List.map_nil, b.buildCountQuery_shape]
    | page index size =>
      rw [List.map_cons, List.map_cons, b.buildCountQuery_shape]
      congr 1
      split
      · rfl
      · rw [List.map_singleton, List.map_singleton, buildSelectQuery_shape]
        rfl

/-- A statement whose text is SQL's and the entity's pieces, numbered through for its values. -/
def Numbered (entity : EntityTable) (statement : Text × List SqlValue) : Prop :=
  ∃ tokens, statement.1 = textOf tokens ∧ Clean entity tokens ∧
    placeholders tokens = List.range' 1 statement.2.length

theorem select_numbered {entity : EntityTable} {b : SqliteQueryBuilder} (hb : b.Resolved entity)
    (herror : b.error = none) : Numbered entity (b.buildSelectQuery entity) := by
  rw [buildSelectQuery_eq]
  exact ⟨_, rfl, selectTokens_clean hb herror, placeholders_selectTokens entity b⟩

theorem count_numbered {entity : EntityTable} {b : SqliteQueryBuilder} (hb : b.Resolved entity)
    (herror : b.error = none) : Numbered entity (b.buildCountQuery entity) := by
  rw [buildCountQuery_eq]
  exact ⟨_, rfl, countTokens_clean hb herror, placeholders_whereTokens entity b⟩

theorem built_numbered {entity : EntityTable} {b : SqliteQueryBuilder} (hb : b.Resolved entity)
    (t : Terminal) : ∀ statement ∈ t.built entity b, Numbered entity statement := by
  unfold built
  split
  next => exact nofun
  next hsome =>
    have herror : b.error = none := Option.not_isSome_iff_eq_none.mp hsome
    cases t with
    | all => simpa using select_numbered hb herror
    | one =>
      have hone : ({ b with lim := some 1 } : SqliteQueryBuilder).Resolved entity :=
        ⟨hb.filters, hb.order, hb.spec⟩
      simpa using select_numbered hone herror
    | count => simpa using count_numbered hb herror
    | page index size =>
      have hwindow : ({ b with off := saturatingMul index size, lim := some size } :
          SqliteQueryBuilder).Resolved entity := ⟨hb.filters, hb.order, hb.spec⟩
      refine List.forall_mem_cons.mpr ⟨count_numbered hb herror, ?_⟩
      split
      · exact nofun
      · simpa using select_numbered hwindow herror

theorem execute_spec {conn : SqliteConnection T} {α : Type}
    (answer : Text → List SqlValue → Except OrmError α) (statement : Text × List SqlValue) :
    (execute conn answer statement).statements <+: [statement] := by
  unfold execute
  split
  · exact List.nil_prefix
  · exact List.prefix_rfl

theorem fetchAll_statements (entity : EntityTable) (conn : SqliteConnection T)
    (b : SqliteQueryBuilder) (herror : b.error = none) :
    (b.fetchAll entity conn).statements <+: [b.buildSelectQuery entity] := by
  simpa only [fetchAll, herror] using execute_spec conn.rows _

/-- A terminal operation runs no statement but those it builds, in their order. -/
theorem run_built (entity : EntityTable) (conn : SqliteConnection T) (b : SqliteQueryBuilder)
    (t : Terminal) : (t.run entity conn b).statements <+: t.built entity b := by
  unfold built
  cases herror : b.error with
  | some e =>
    cases t <;> simp [run, fetchAll, fetchOne, fetchCount, fetchPage, herror, Ran.fail, Ran.map]
  | none =>
    cases t with
    | all => exact fetchAll_statements entity conn b herror
    | one => exact fetchAll_statements entity conn { b with lim := some 1 } herror
    | count => simpa [run, fetchCount, herror, Ran.map] using execute_spec conn.count _
    | page index size =>
      have hrest := fetchAll_statements entity conn
        { b with off := saturatingMul index size, lim := some size } herror
      rw [herror] at hrest
      simp only [run, fetchPage, herror, Ran.map, Option.isSome_none, Bool.false_eq_true, if_false]
      unfold execute
      cases conn.poisoned with
      | true => exact List.nil_prefix
      | false =>
        simp only [Bool.false_eq_true, if_false, Ran.bind]
        split
        · refine List.cons_prefix_cons.mpr ⟨rfl, ?_⟩
          split
          · exact List.prefix_rfl
          · exact hrest
        · exact List.cons_prefix_cons.mpr ⟨rfl, List.nil_prefix⟩

/-- With a field among the calls that is no column, a terminal operation fails before it runs a
statement. -/
theorem run_unknown {entity : EntityTable} (conn : SqliteConnection T) {b : SqliteQueryBuilder}
    (h : b.error.isSome) (t : Terminal) : ∃ e, t.run entity conn b = .fail e := by
  obtain ⟨e, he⟩ := Option.isSome_iff_exists.mp h
  refine ⟨e, ?_⟩
  cases t <;>
    simp [run, fetchAll, fetchOne, fetchCount, fetchPage, he, Ran.fail, Ran.map, Except.map]

/-- The text of the statements is a function of the calls without their values, made of SQL's and
the entity's words and of the placeholders of the values; and a field that is no column lets nothing
run. -/
theorem built_text (entity : EntityTable) (T : Type) :
    (∀ calls calls' : List QueryCall, calls.map QueryCall.shape = calls'.map QueryCall.shape →
      ∀ t : Terminal, (t.built entity (build entity calls)).map Prod.fst =
        (t.built entity (build entity calls')).map Prod.fst) ∧
    (∀ (calls : List QueryCall) (t : Terminal),
      (∀ statement ∈ t.built entity (build entity calls), Numbered entity statement) ∧
      ∀ conn : SqliteConnection T,
        (t.run entity conn (build entity calls)).statements <+:
            t.built entity (build entity calls) ∧
        ((∃ c ∈ calls, ∃ f ∈ c.fields, ¬ entity.HasField f) →
          ∃ e, t.run entity conn (build entity calls) = .fail e)) := by
  refine ⟨fun calls calls' h t => ?_, fun calls t => ⟨?_, fun conn => ⟨?_, ?_⟩⟩⟩
  · have hshape : (build entity calls).shape = (build entity calls').shape := calls_shape rfl h
    rw [built_shape, hshape, ← built_shape]
  · exact built_numbered (build_resolved entity calls) t
  · exact run_built entity conn _ t
  · rintro ⟨c, hc, f, hf, hfield⟩
    exact run_unknown conn (build_error hc hf hfield) t

def usersTable : EntityTable where
  tableName := "users".toList
  columns := [⟨"id".toList, "id".toList, .bigInt⟩, ⟨"name".toList, "name".toList, .text⟩]

theorem built_text_users :
    (Terminal.all.built usersTable (build usersTable
      [.compare .eq "name".toList "x' OR 1=1".toList, .in_ "id".toList ["1".toList, "y".toList],
        .limit 5])).map Prod.fst =
    (Terminal.all.built usersTable (build usersTable
      [.compare .eq "name".toList "ann".toList, .in_ "id".toList ["2".toList, "3".toList],
        .limit 5])).map Prod.fst ∧
    ∃ e, Terminal.count.run usersTable ⟨false, fun _ _ => .ok [()], fun _ _ => .ok 1⟩
      (build usersTable [.isNull "1=1; --".toList]) = .fail e := by
  obtain ⟨hsame, hterminal⟩ := built_text usersTable Unit
  refine ⟨hsame _ _ rfl _, (hterminal _ _).2 _ |>.2 ?_⟩
  refine ⟨_, List.mem_singleton_self _, _, List.mem_singleton_self _, ?_⟩
  unfold EntityTable.HasField
  decide

end Terminal

end Kernway
