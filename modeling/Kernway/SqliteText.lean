import Kernway.SqliteBuilder

namespace Kernway

/-- The pieces that a statement is written of. -/
inductive SqlToken
  | literal (s : Text)
  | name (s : Text)
  | placeholder (k : Nat)
  | number (n : UInt64)

namespace SqlToken

def text : SqlToken → Text
  | literal s => s
  | name s => s
  | placeholder k => numbered k
  | number n => decimal n

def index : SqlToken → Option Nat
  | placeholder k => some k
  | _ => none

/-- The pieces that no call decides. -/
def literals : List Text :=
  [", ".toList, "SELECT ".toList, "SELECT COUNT(*) FROM ".toList, " FROM ".toList,
    " WHERE ".toList, " AND ".toList, " OR ".toList, "(".toList, ")".toList, "NOT (".toList,
    "1 = 0".toList, " = ".toList, " != ".toList, " > ".toList, " < ".toList, " >= ".toList,
    " <= ".toList, " LIKE ".toList, " IN (".toList, " BETWEEN ".toList, " IS NULL".toList,
    " IS NOT NULL".toList, " ORDER BY ".toList, " ASC".toList, " DESC".toList, " LIMIT ".toList,
    " OFFSET ".toList]

/-- A piece of no other text than SQL's and the entity's. -/
def Allowed (entity : EntityTable) : SqlToken → Prop
  | literal s => s ∈ literals
  | name s => s = entity.tableName ∨ s ∈ entity.columns.map ColumnDef.name
  | _ => True

end SqlToken

def textOf (tokens : List SqlToken) : Text := tokens.flatMap SqlToken.text

def placeholders (tokens : List SqlToken) : List Nat := tokens.filterMap SqlToken.index

def joinTokens (sep : Text) (parts : List (List SqlToken)) : List SqlToken :=
  [SqlToken.literal sep].intercalate parts

theorem textOf_nil : textOf [] = [] := rfl

theorem textOf_cons (t : SqlToken) (ts : List SqlToken) : textOf (t :: ts) = t.text ++ textOf ts :=
  List.flatMap_cons

theorem textOf_append (s t : List SqlToken) : textOf (s ++ t) = textOf s ++ textOf t :=
  List.flatMap_append

theorem textOf_joinTokens (sep : Text) (parts : List (List SqlToken)) :
    textOf (joinTokens sep parts) = sep.intercalate (parts.map textOf) := by
  induction parts with
  | nil => rfl
  | cons part parts ih =>
    cases parts with
    | nil => simp [joinTokens, List.intercalate]
    | cons next parts =>
      rw [List.map_cons, List.map_cons, List.intercalate_cons_cons, ← List.map_cons, ← ih,
        joinTokens, List.intercalate_cons_cons, textOf_append, textOf_append, textOf_cons,
        textOf_nil, List.append_nil, SqlToken.text, joinTokens]

theorem placeholders_joinTokens (sep : Text) (parts : List (List SqlToken)) :
    placeholders (joinTokens sep parts) = parts.flatMap placeholders := by
  induction parts with
  | nil => rfl
  | cons part parts ih =>
    cases parts with
    | nil => simp [joinTokens, List.intercalate]
    | cons next parts =>
      rw [joinTokens, List.intercalate_cons_cons, placeholders, List.filterMap_append,
        List.filterMap_append, ← joinTokens, ← placeholders, ← placeholders, ← placeholders, ih]
      simp [placeholders, SqlToken.index]

theorem mem_joinTokens {sep : Text} {parts : List (List SqlToken)} {token : SqlToken}
    (h : token ∈ joinTokens sep parts) : token = .literal sep ∨ ∃ part ∈ parts, token ∈ part := by
  induction parts with
  | nil => simp [joinTokens] at h
  | cons part parts ih =>
    cases parts with
    | nil =>
      have hin : token ∈ part := by simpa [joinTokens, List.intercalate] using h
      exact .inr ⟨part, List.mem_cons_self .., hin⟩
    | cons next parts =>
      rw [joinTokens, List.intercalate_cons_cons, ← joinTokens] at h
      rcases List.mem_append.mp h with h | h
      · rcases List.mem_append.mp h with h | h
        · exact .inr ⟨part, List.mem_cons_self .., h⟩
        · exact .inl (List.mem_singleton.mp h)
      · obtain heq | ⟨part', hpart, hin⟩ := ih h
        · exact .inl heq
        · exact .inr ⟨part', List.mem_cons_of_mem _ hpart, hin⟩

def CompareOp.infixText (op : CompareOp) : Text := " ".toList ++ op.symbol ++ " ".toList

def SqlExpr.tokens : SqlExpr → List SqlToken
  | compare op col k => [.name col, .literal op.infixText, .placeholder k]
  | like col k => [.name col, .literal " LIKE ".toList, .placeholder k]
  | isIn col ks => [.name col, .literal " IN (".toList] ++
      joinTokens ", ".toList (ks.map fun k => [.placeholder k]) ++ [.literal ")".toList]
  | between col a b => [.name col, .literal " BETWEEN ".toList, .placeholder a,
      .literal " AND ".toList, .placeholder b]
  | isNull col => [.name col, .literal " IS NULL".toList]
  | isNotNull col => [.name col, .literal " IS NOT NULL".toList]
  | and a b => .literal "(".toList :: a.tokens ++ .literal " AND ".toList :: b.tokens ++
      [.literal ")".toList]
  | or a b => .literal "(".toList :: a.tokens ++ .literal " OR ".toList :: b.tokens ++
      [.literal ")".toList]
  | not a => .literal "NOT (".toList :: a.tokens ++ [.literal ")".toList]

theorem SqlExpr.textOf_tokens (e : SqlExpr) : textOf e.tokens = e.render := by
  have hjoin : ∀ ks : List Nat, textOf (joinTokens ", ".toList (ks.map fun k =>
      [SqlToken.placeholder k])) = ", ".toList.intercalate (ks.map numbered) := by
    intro ks
    rw [textOf_joinTokens, List.map_map]
    congr 1
    refine List.map_congr_left fun k _ => ?_
    simp [textOf, SqlToken.text]
  induction e with
  | isIn col ks =>
    unfold render
    simp only [tokens, textOf_append, textOf_cons, textOf_nil, SqlToken.text, hjoin,
      List.append_assoc, List.append_nil]
  | and a b iha ihb =>
    unfold render
    simp only [tokens, textOf_append, textOf_cons, textOf_nil, SqlToken.text, iha, ihb,
      List.append_assoc, List.cons_append, List.append_nil]
  | or a b iha ihb =>
    unfold render
    simp only [tokens, textOf_append, textOf_cons, textOf_nil, SqlToken.text, iha, ihb,
      List.append_assoc, List.cons_append, List.append_nil]
  | not a iha =>
    unfold render
    simp only [tokens, textOf_append, textOf_cons, textOf_nil, SqlToken.text, iha,
      List.append_assoc, List.cons_append, List.append_nil]
  | _ =>
    unfold render
    simp only [tokens, textOf_cons, textOf_nil, SqlToken.text, CompareOp.infixText,
      List.append_assoc, List.append_nil]

def Condition.tokens : Condition → List SqlToken
  | expr e => e.tokens
  | never => [.literal "1 = 0".toList]

theorem Condition.textOf_tokens (c : Condition) : textOf c.tokens = c.render := by
  cases c with
  | expr e => exact e.textOf_tokens
  | never => rfl

namespace SqliteQueryBuilder

variable (entity : EntityTable)

def sortTokens : Text × SortDir → List SqlToken
  | (col, .asc) => [.name col, .literal " ASC".toList]
  | (col, .desc) => [.name col, .literal " DESC".toList]

def whereTokens (b : SqliteQueryBuilder) : List SqlToken :=
  if (b.conditions entity).1.isEmpty then []
  else .literal " WHERE ".toList ::
    joinTokens " AND ".toList ((b.conditions entity).1.map Condition.tokens)

def orderTokens (b : SqliteQueryBuilder) : List SqlToken :=
  if b.order.isEmpty then []
  else .literal " ORDER BY ".toList :: joinTokens ", ".toList (b.order.map sortTokens)

def limitTokens (b : SqliteQueryBuilder) : List SqlToken :=
  match b.lim with
  | some n => [.literal " LIMIT ".toList, .number n]
  | none => []

def offsetTokens (b : SqliteQueryBuilder) : List SqlToken :=
  if 0 < b.off then [.literal " OFFSET ".toList, .number b.off] else []

def selectTokens (b : SqliteQueryBuilder) : List SqlToken :=
  .literal "SELECT ".toList ::
    joinTokens ", ".toList (entity.columns.map fun c => [.name c.name]) ++
    .literal " FROM ".toList :: .name entity.tableName :: b.whereTokens entity ++ b.orderTokens ++
    b.limitTokens ++ b.offsetTokens

def countTokens (b : SqliteQueryBuilder) : List SqlToken :=
  .literal "SELECT COUNT(*) FROM ".toList :: .name entity.tableName :: b.whereTokens entity

theorem textOf_sortTokens (part : Text × SortDir) : textOf (sortTokens part) = sortPart part := by
  obtain ⟨col, dir⟩ := part
  cases dir <;>
    simp only [sortTokens, sortPart, textOf_cons, textOf_nil, SqlToken.text, List.append_nil]

theorem buildWhereClause_eq (b : SqliteQueryBuilder) :
    b.buildWhereClause entity = (textOf (b.whereTokens entity), (b.conditions entity).2) := by
  unfold buildWhereClause whereTokens
  dsimp only
  by_cases h : (b.conditions entity).1.isEmpty = true
  · rw [if_pos h, if_pos h, textOf_nil]
  · rw [if_neg h, if_neg h, textOf_cons, textOf_joinTokens, List.map_map]
    simp only [Function.comp_def, Condition.textOf_tokens]
    rfl

theorem textOf_orderTokens (b : SqliteQueryBuilder) : textOf b.orderTokens = b.orderClause := by
  unfold orderTokens orderClause
  split
  · rfl
  · rw [textOf_cons, textOf_joinTokens, List.map_map]
    simp only [Function.comp_def, textOf_sortTokens]
    rfl

theorem textOf_limitTokens (b : SqliteQueryBuilder) : textOf b.limitTokens = b.limitClause := by
  unfold limitTokens limitClause
  cases b.lim with
  | none => rfl
  | some n => simp only [textOf_cons, textOf_nil, SqlToken.text, List.append_nil]

theorem textOf_offsetTokens (b : SqliteQueryBuilder) : textOf b.offsetTokens = b.offsetClause := by
  unfold offsetTokens offsetClause
  split
  · simp only [textOf_cons, textOf_nil, SqlToken.text, List.append_nil]
  · rfl

/-- The statements are what their pieces spell. -/
theorem buildSelectQuery_eq (b : SqliteQueryBuilder) :
    b.buildSelectQuery entity = (textOf (b.selectTokens entity), (b.conditions entity).2) := by
  have hcolumns : textOf (joinTokens ", ".toList (entity.columns.map fun c => [.name c.name])) =
      ", ".toList.intercalate (entity.columns.map ColumnDef.name) := by
    rw [textOf_joinTokens, List.map_map]
    congr 1
    refine List.map_congr_left fun c _ => ?_
    simp [textOf, SqlToken.text]
  have htext : textOf (b.selectTokens entity) = "SELECT ".toList ++
      ", ".toList.intercalate (entity.columns.map ColumnDef.name) ++ " FROM ".toList ++
      entity.tableName ++ textOf (b.whereTokens entity) ++ b.orderClause ++ b.limitClause ++
      b.offsetClause := by
    rw [← hcolumns, selectTokens]
    simp only [textOf_append, textOf_cons, SqlToken.text, textOf_orderTokens,
      textOf_limitTokens, textOf_offsetTokens, List.append_assoc, List.cons_append]
  unfold buildSelectQuery
  rw [buildWhereClause_eq, htext]

theorem buildCountQuery_eq (b : SqliteQueryBuilder) :
    b.buildCountQuery entity = (textOf (b.countTokens entity), (b.conditions entity).2) := by
  unfold buildCountQuery
  rw [buildWhereClause_eq, countTokens, textOf_cons, textOf_cons, SqlToken.text, SqlToken.text,
    ← List.append_assoc]

end SqliteQueryBuilder

/-- The placeholders `ks` are those of the parameters that `params'` has beyond `params`. -/
def Numbers (params params' : List SqlValue) (ks : List Nat) : Prop :=
  ∃ pushed, params' = params ++ pushed ∧ ks = List.range' (params.length + 1) pushed.length

namespace Numbers

variable {params params' params'' : List SqlValue} {ks ks' : List Nat}

theorem nil (params : List SqlValue) : Numbers params params [] := ⟨[], by simp, rfl⟩

theorem single (params : List SqlValue) (v : SqlValue) :
    Numbers params (params ++ [v]) [params.length + 1] := ⟨[v], rfl, rfl⟩

theorem append (h : Numbers params params' ks) (h' : Numbers params' params'' ks') :
    Numbers params params'' (ks ++ ks') := by
  obtain ⟨pushed, rfl, rfl⟩ := h
  obtain ⟨pushed', rfl, rfl⟩ := h'
  refine ⟨pushed ++ pushed', List.append_assoc .., ?_⟩
  rw [List.length_append, List.length_append, Nat.add_right_comm, List.range'_append_1]

end Numbers

theorem placeholders_append (s t : List SqlToken) :
    placeholders (s ++ t) = placeholders s ++ placeholders t := List.filterMap_append

@[simp]
theorem placeholders_nil : placeholders [] = [] := rfl

@[simp]
theorem placeholders_literal (s : Text) (ts : List SqlToken) :
    placeholders (.literal s :: ts) = placeholders ts := rfl

@[simp]
theorem placeholders_name (s : Text) (ts : List SqlToken) :
    placeholders (.name s :: ts) = placeholders ts := rfl

@[simp]
theorem placeholders_placeholder (k : Nat) (ts : List SqlToken) :
    placeholders (.placeholder k :: ts) = k :: placeholders ts := rfl

theorem placeholders_list (ks : List Nat) :
    placeholders (joinTokens ", ".toList (ks.map fun k => [.placeholder k])) = ks := by
  rw [placeholders_joinTokens, List.flatMap_map]
  exact List.flatMap_singleton' ks

theorem pushEach_numbers (params vs : List SqlValue) :
    Numbers params (pushEach params vs).2 (pushEach params vs).1 := by
  induction vs generalizing params with
  | nil => exact .nil params
  | cons v vs ih => exact (Numbers.single params v).append (ih (params ++ [v]))

theorem placeholders_isIn (col : Text) (ks : List Nat) :
    placeholders (SqlExpr.isIn col ks).tokens = ks := by
  rw [SqlExpr.tokens, placeholders_append, placeholders_append, placeholders_list]
  simp

theorem placeholders_binary (a b : List SqlToken) (op close : Text) :
    placeholders (.literal "(".toList :: a ++ .literal op :: b ++ [.literal close]) =
      placeholders a ++ placeholders b := by
  simp [placeholders_append]

theorem specToSql_numbers (columns : List ColumnDef) (spec : Spec) (params : List SqlValue) :
    Numbers params (specToSql columns spec params).2
      (placeholders (specToSql columns spec params).1.tokens) := by
  induction spec generalizing params with
  | compare op f v =>
    have h := Numbers.single params (filterValueForField columns f v)
    simpa [specToSql, SqlExpr.tokens] using h
  | like f v =>
    have h := Numbers.single params (.text v)
    simpa [specToSql, SqlExpr.tokens] using h
  | in_ f vs =>
    simp only [specToSql, placeholders_isIn]
    exact pushEach_numbers params _
  | between f lo hi =>
    have h := (Numbers.single params (filterValueForField columns f lo)).append
      (Numbers.single _ (filterValueForField columns f hi))
    simpa [specToSql, SqlExpr.tokens] using h
  | isNull f => exact .nil params
  | isNotNull f => exact .nil params
  | and a b iha ihb =>
    simp only [specToSql, SqlExpr.tokens, placeholders_binary]
    exact (iha params).append (ihb _)
  | or a b iha ihb =>
    simp only [specToSql, SqlExpr.tokens, placeholders_binary]
    exact (iha params).append (ihb _)
  | not a iha =>
    have h := iha params
    simpa [specToSql, SqlExpr.tokens, placeholders_append] using h

namespace SqliteQueryBuilder

variable (entity : EntityTable)

theorem condition_numbers (params : List SqlValue) (filter : Filter) :
    Numbers params (condition params filter).2
      (placeholders (condition params filter).1.tokens) := by
  cases filter with
  | compare op col val => exact .single params val
  | like col pat => exact .single params (.text pat)
  | in_ col vals =>
    simp only [condition]
    split
    · exact .nil params
    · refine ⟨vals, rfl, ?_⟩
      rw [Condition.tokens, placeholders_isIn, List.range'_eq_map_range]
      exact List.map_congr_left fun offset _ => by omega
  | between col lo hi => exact ⟨[lo, hi], rfl, rfl⟩
  | isNull col => exact .nil params
  | isNotNull col => exact .nil params

theorem flatConditions_numbers (params : List SqlValue) (filters : List Filter) :
    Numbers params (flatConditions params filters).2
      ((flatConditions params filters).1.flatMap fun c => placeholders c.tokens) := by
  induction filters generalizing params with
  | nil => exact .nil params
  | cons filter filters ih =>
    simp only [flatConditions, List.flatMap_cons]
    exact (condition_numbers params filter).append (ih _)

theorem conditions_numbers (b : SqliteQueryBuilder) :
    Numbers [] (b.conditions entity).2
      ((b.conditions entity).1.flatMap fun c => placeholders c.tokens) := by
  have hflat := flatConditions_numbers [] b.filters
  unfold conditions
  cases b.spec with
  | none => exact hflat
  | some spec =>
    simp only [List.flatMap_append, List.flatMap_singleton]
    exact hflat.append (specToSql_numbers entity.columns spec _)

/-- The clause has the placeholders of its values, one for each and in their order. -/
theorem placeholders_whereTokens (b : SqliteQueryBuilder) :
    placeholders (b.whereTokens entity) = List.range' 1 (b.conditions entity).2.length := by
  obtain ⟨pushed, hpushed, hnumbers⟩ := conditions_numbers entity b
  rw [hpushed, List.nil_append, whereTokens]
  rw [List.length_nil] at hnumbers
  split
  next hempty =>
    rw [List.isEmpty_iff.mp hempty, List.flatMap_nil] at hnumbers
    rw [← hnumbers]
    rfl
  next =>
    show placeholders (joinTokens " AND ".toList _) = _
    rw [placeholders_joinTokens, List.flatMap_map, hnumbers]

theorem placeholders_nil_of_names {tokens : List SqlToken} (h : ∀ t ∈ tokens, t.index = none) :
    placeholders tokens = [] := by
  rw [placeholders, List.filterMap_eq_nil_iff]
  exact h

theorem placeholders_orderTokens (b : SqliteQueryBuilder) : placeholders b.orderTokens = [] := by
  unfold orderTokens
  split
  · rfl
  · show placeholders (joinTokens ", ".toList _) = _
    rw [placeholders_joinTokens, List.flatMap_map, List.flatMap_eq_nil_iff]
    rintro ⟨col, dir⟩ -
    cases dir <;> rfl

theorem placeholders_selectTokens (b : SqliteQueryBuilder) :
    placeholders (b.selectTokens entity) = List.range' 1 (b.conditions entity).2.length := by
  have hcolumns : placeholders (joinTokens ", ".toList (entity.columns.map fun c =>
      [SqlToken.name c.name])) = [] := by
    rw [placeholders_joinTokens, List.flatMap_map, List.flatMap_eq_nil_iff]
    exact fun c _ => rfl
  have hlimit : placeholders b.limitTokens = [] := by
    unfold limitTokens
    split <;> rfl
  have hoffset : placeholders b.offsetTokens = [] := by
    unfold offsetTokens
    split <;> rfl
  rw [selectTokens, placeholders_append, placeholders_append, placeholders_append, hlimit, hoffset,
    placeholders_orderTokens, List.append_nil, List.append_nil, List.append_nil]
  show placeholders (joinTokens _ _ ++ _ :: _ :: b.whereTokens entity) = _
  rw [placeholders_append, hcolumns, List.nil_append]
  exact placeholders_whereTokens entity b

end SqliteQueryBuilder

end Kernway
