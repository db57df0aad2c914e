import Kernway.Results
import Kernway.SqlDialect

namespace Kernway

namespace SqliteEntity

variable {D T Id : Type} (entity : SqliteEntity T Id)

/-- The statement of `doInsert`. -/
def insertStatement : SqlStatement Text :=
  .insert entity.tableName
    (((entity.columns.filter fun c => !(c.primaryKey && c.auto)).map (·.name)).zipIdx 1)

/-- The statement of `doUpdate`. -/
def updateStatement : SqlStatement Text :=
  let setCols := (entity.columns.filter fun c => !c.primaryKey).map (·.name)
  .update entity.tableName (setCols.zipIdx 1) (entity.pkCols.zipIdx (setCols.length + 1))

/-- The statement of `deleteByIdSync`. -/
def deleteStatement : SqlStatement Text := .delete entity.tableName (entity.pkCols.zipIdx 1)

def insertValues (vals : KeyedColumn → SqlValue) : List SqlValue :=
  (entity.columns.filter fun c => !(c.primaryKey && c.auto)).map vals

/-- The columns that are no key, then the key. -/
def updateValues (vals : KeyedColumn → SqlValue) (key : List SqlValue) : List SqlValue :=
  (entity.columns.filter fun c => !c.primaryKey).map vals ++ key

theorem pkWhere_eq (start : Nat) :
    entity.pkWhere start =
      " AND ".toList.intercalate ((entity.pkCols.zipIdx start).map SqlDialect.bare.assignment) := by
  rw [SqlDialect.map_assignment]
  rfl

theorem render_insertStatement :
    SqlDialect.bare.render entity.insertStatement =
      let insertCols := entity.columns.filter fun c => !(c.primaryKey && c.auto)
      "INSERT INTO ".toList ++ entity.tableName ++ " (".toList ++
        ", ".toList.intercalate (insertCols.map (·.name)) ++ ") VALUES (".toList ++
        placeholders insertCols.length ++ ")".toList := by
  have hrender := SqlDialect.bare.render_insert entity.tableName
    ((entity.columns.filter fun c => !(c.primaryKey && c.auto)).map (·.name))
  rw [List.length_map, List.range'_eq_map_range, List.map_map, List.map_map] at hrender
  exact hrender

theorem render_updateStatement :
    SqlDialect.bare.render entity.updateStatement =
      let setCols := entity.columns.filter fun c => !c.primaryKey
      "UPDATE ".toList ++ entity.tableName ++ " SET ".toList ++
        ", ".toList.intercalate
          (setCols.zipIdx.map fun p => p.1.name ++ " = ".toList ++ numbered 1 p.2) ++
        " WHERE ".toList ++ entity.pkWhere (setCols.length + 1) := by
  have hsets := SqlDialect.bare.map_assignment_name (entity.columns.filter fun c => !c.primaryKey) 1
  unfold updateStatement
  rw [SqlDialect.render_update, hsets, ← pkWhere_eq, List.length_map]
  rfl

variable (driver : SqliteDriver D) {value : T} {fields : List (Text × Json)}
  {vals : KeyedColumn → SqlValue} {key : List SqlValue}

theorem mapM_jsonToSql (hvals : ∀ c ∈ entity.columns,
      entity.jsonToSql (fieldOf fields c.field) c = .ok (vals c)) (p : KeyedColumn → Bool) :
    ((entity.columns.filter p).mapM fun c => entity.jsonToSql (fieldOf fields c.field) c) =
      .ok ((entity.columns.filter p).map vals) :=
  mapM_ok fun c hc => hvals c (List.mem_of_mem_filter hc)

/-- What an insertion does to the database is what its one statement does. -/
theorem doInsert_snd (hjson : mapSerde (entity.toValue value) = .ok (.object fields))
    (hvals : ∀ c ∈ entity.columns, entity.jsonToSql (fieldOf fields c.field) c = .ok (vals c))
    (d : D) :
    (doInsert entity driver value d).2 =
      (driver.execute (SqlDialect.bare.render entity.insertStatement) (entity.insertValues vals)
        d).2 := by
  have hinsert := entity.mapM_jsonToSql hvals fun c => !(c.primaryKey && c.auto)
  unfold doInsert insertValues
  rw [render_insertStatement, hjson]
  simp only [bind, Except.bind, asObject]
  rw [hinsert]
  simp only [andThen]
  -- the statement that reads the new row back leaves the database as it is
  split
  next done hdone => split <;> rfl
  next e hdone => rfl

theorem doUpdate_eq (hjson : mapSerde (entity.toValue value) = .ok (.object fields))
    (hvals : ∀ c ∈ entity.columns, entity.jsonToSql (fieldOf fields c.field) c = .ok (vals c))
    (hkey : entity.idToSqlValues (entity.id value) = .ok key) (d : D) :
    doUpdate entity driver value d =
      let done := driver.execute (SqlDialect.bare.render entity.updateStatement)
        (entity.updateValues vals key) d
      (done.1.map fun _ => value, done.2) := by
  have hset := entity.mapM_jsonToSql hvals fun c => !c.primaryKey
  unfold doUpdate
  rw [hjson, render_updateStatement]
  simp only [bind, Except.bind, asObject]
  rw [hset, hkey]
  rfl

theorem deleteByIdSync_eq {id : Id} (hkey : entity.idToSqlValues id = .ok key) (d : D) :
    deleteByIdSync entity driver id d =
      driver.execute (SqlDialect.bare.render entity.deleteStatement) key d := by
  unfold deleteByIdSync
  rw [hkey, pkWhere_eq]
  rfl

/-- The rows whose whole key is the given one are written, and no other. -/
theorem exec_updateStatement {C : Type} [DecidableEq C] {t : SqlTable C SqlValue}
    {reads : Text → C} {rows rows' : List (C → SqlValue)}
    (hkey : key.length = entity.pkCols.length)
    (h : t.exec (entity.updateStatement.map reads) (entity.updateValues vals key) rows =
      some rows') :
    rows' = rows.map fun row =>
      if t.isAt ((entity.pkCols.map reads).zip key) row then
        t.write ((entity.columns.filter fun c => !c.primaryKey).map fun c =>
          (reads c.name, vals c)) row
      else row := by
  have hzip : (((entity.columns.filter fun c => !c.primaryKey).map (·.name)).map reads).zip
      ((entity.columns.filter fun c => !c.primaryKey).map vals) =
      (entity.columns.filter fun c => !c.primaryKey).map fun c => (reads c.name, vals c) := by
    rw [List.map_map]
    exact List.zip_map'
  unfold updateStatement updateValues at h
  have hlength : (((entity.columns.filter fun c => !c.primaryKey).map (·.name)).map reads).length =
      ((entity.columns.filter fun c => !c.primaryKey).map (·.name)).length := List.length_map reads
  rw [SqlStatement.map, List.map_zipIdx, List.map_zipIdx, ← hlength] at h
  have hrows := SqlTable.exec_update (by simp) (by rw [List.length_map, hkey]) h
  rwa [hzip] at hrows

theorem exec_deleteStatement {C : Type} [DecidableEq C] {t : SqlTable C SqlValue}
    {reads : Text → C} {rows rows' : List (C → SqlValue)}
    (hkey : key.length = entity.pkCols.length)
    (h : t.exec (entity.deleteStatement.map reads) key rows = some rows') :
    rows' = rows.filter fun row => !t.isAt ((entity.pkCols.map reads).zip key) row := by
  unfold deleteStatement at h
  rw [SqlStatement.map, List.map_zipIdx] at h
  exact SqlTable.exec_delete (by rw [List.length_map, hkey]) h

/-- The placeholders are one to the number of values, each once and in the order of the text. -/
theorem params_insertStatement (vals : KeyedColumn → SqlValue) :
    entity.insertStatement.params = List.range' 1 (entity.insertValues vals).length := by
  have hparams := SqlStatement.params_zipIdx
    ((entity.columns.filter fun c => !(c.primaryKey && c.auto)).map (·.name)) 1
  rw [List.length_map] at hparams
  unfold insertValues
  rw [List.length_map, ← hparams]
  rfl

theorem params_updateStatement (vals : KeyedColumn → SqlValue)
    (hkey : key.length = entity.pkCols.length) :
    entity.updateStatement.params = List.range' 1 (entity.updateValues vals key).length := by
  have hparams := SqlStatement.params_update entity.tableName
    ((entity.columns.filter fun c => !c.primaryKey).map (·.name)) entity.pkCols
  rw [List.length_map] at hparams
  unfold updateStatement updateValues
  dsimp only
  rw [List.length_append, List.length_map, List.length_map, hkey, ← hparams]

theorem params_deleteStatement (hkey : key.length = entity.pkCols.length) :
    entity.deleteStatement.params = List.range' 1 key.length := by
  have hparams := SqlStatement.params_zipIdx entity.pkCols 1
  rw [hkey, ← hparams]
  rfl

end SqliteEntity

/-- At most one key column, and only key columns are the database's to fill in. -/
def SimpleKey (cols : List KeyedColumn) : Prop :=
  (cols.filter (·.primaryKey)).length ≤ 1 ∧ ∀ c ∈ cols, c.auto → c.primaryKey

namespace SqlDialect

def insertValues (cols : List KeyedColumn) (vals : KeyedColumn → SqlValue) : List SqlValue :=
  (cols.filter fun c => !c.auto).map vals

def updateValues (cols : List KeyedColumn) (vals : KeyedColumn → SqlValue)
    (key : List SqlValue) : List SqlValue :=
  (cols.filter fun c => !c.primaryKey && !c.auto).map vals ++ key

section

variable {T Id : Type} (d : SqlDialect) (entity : SqliteEntity T Id)

/-- A database for which the dialect's quotes name the same table and columns as none. -/
def ReadsAlike (reads : Text → Text) : Prop :=
  ∀ name ∈ entity.tableName :: "id".toList :: entity.columns.map (·.name),
    reads (d.quoteIdentifier name) = reads name

/-- On every table, a statement in the dialect does what the repository's does. -/
def SameEffect (s own : SqlStatement Text) (values ownValues : List SqlValue) : Prop :=
  ∀ (t : SqlTable Text SqlValue) (reads : Text → Text), d.ReadsAlike entity reads →
    ∀ rows : List (Text → SqlValue),
      t.exec (s.map (reads ∘ d.quoteIdentifier)) values rows =
        t.exec (own.map reads) ownValues rows

/-- The shared statements do to a table what the repository's own do, they write and remove the
rows of the whole key, and their placeholders are one to the number of values. -/
structure Agrees : Prop where
  insert : ∀ vals, d.SameEffect entity (insertStatement entity.tableName entity.columns)
    entity.insertStatement (insertValues entity.columns vals) (entity.insertValues vals)
  update : ∀ vals, ∀ key : List SqlValue, key.length = entity.pkCols.length →
    d.SameEffect entity (updateStatement entity.tableName entity.columns) entity.updateStatement
      (updateValues entity.columns vals key) (entity.updateValues vals key)
  delete : ∀ key : List SqlValue, key.length = entity.pkCols.length →
    d.SameEffect entity (deleteStatement entity.tableName entity.pkColName)
      entity.deleteStatement key key
  updates_key : ∀ (t : SqlTable Text SqlValue) (reads : Text → Text), d.ReadsAlike entity reads →
    ∀ vals, ∀ key : List SqlValue, key.length = entity.pkCols.length →
    ∀ rows rows' : List (Text → SqlValue),
      t.exec ((updateStatement entity.tableName entity.columns).map (reads ∘ d.quoteIdentifier))
        (updateValues entity.columns vals key) rows = some rows' →
      rows' = rows.map fun row =>
        if t.isAt ((entity.pkCols.map reads).zip key) row then
          t.write ((entity.columns.filter fun c => !c.primaryKey).map fun c =>
            (reads c.name, vals c)) row
        else row
  deletes_key : ∀ (t : SqlTable Text SqlValue) (reads : Text → Text), d.ReadsAlike entity reads →
    ∀ key : List SqlValue, key.length = entity.pkCols.length →
    ∀ rows rows' : List (Text → SqlValue),
      t.exec ((deleteStatement entity.tableName entity.pkColName).map (reads ∘ d.quoteIdentifier))
        key rows = some rows' →
      rows' = rows.filter fun row => !t.isAt ((entity.pkCols.map reads).zip key) row
  writes : (updateStatement entity.tableName entity.columns).sets.map (·.1) =
    (entity.columns.filter fun c => !c.primaryKey).map (·.name)
  numbers_insert : ∀ vals, (insertStatement entity.tableName entity.columns).params =
    List.range' 1 (insertValues entity.columns vals).length
  numbers_update : ∀ vals, ∀ key : List SqlValue, key.length = entity.pkCols.length →
    (updateStatement entity.tableName entity.columns).params =
      List.range' 1 (updateValues entity.columns vals key).length
  numbers_delete : ∀ key : List SqlValue, key.length = entity.pkCols.length →
    (deleteStatement entity.tableName entity.pkColName).params = List.range' 1 key.length

variable {d entity}

theorem mem_pkCols {name : Text} (h : name ∈ entity.pkCols) :
    name ∈ "id".toList :: entity.columns.map (·.name) := by
  unfold SqliteEntity.pkCols at h
  dsimp only at h
  split at h
  next => exact List.mem_cons.mpr (Or.inl (List.mem_singleton.mp h))
  next =>
    obtain ⟨c, hc, rfl⟩ := List.mem_map.mp h
    exact List.mem_cons_of_mem _ (List.mem_map_of_mem (List.mem_of_mem_filter hc))

theorem mem_names {p : KeyedColumn → Bool} {name : Text}
    (h : name ∈ (entity.columns.filter p).map (·.name)) :
    name ∈ "id".toList :: entity.columns.map (·.name) := by
  obtain ⟨c, hc, rfl⟩ := List.mem_map.mp h
  exact List.mem_cons_of_mem _ (List.mem_map_of_mem (List.mem_of_mem_filter hc))

theorem SameEffect.of_eq {s own : SqlStatement Text} {values ownValues : List SqlValue}
    (hs : s = own) (hvalues : values = ownValues) (htable : own.table = entity.tableName)
    (hslots : ∀ slot ∈ own.slots, slot.1 ∈ "id".toList :: entity.columns.map (·.name)) :
    d.SameEffect entity s own values ownValues := by
  intro t reads hreads rows
  have hmap : own.map (reads ∘ d.quoteIdentifier) = own.map reads := by
    apply SqlStatement.map_congr
    · rw [htable]
      exact hreads entity.tableName (List.mem_cons_self ..)
    · intro slot hslot
      exact hreads slot.1 (List.mem_cons_of_mem _ (hslots slot hslot))
  rw [hs, hvalues, hmap]

theorem pkCols_eq (h : (entity.columns.filter (·.primaryKey)).length ≤ 1) :
    entity.pkCols = [entity.pkColName] := by
  unfold SqliteEntity.pkCols SqliteEntity.pkColName
  rw [← List.head?_filter]
  cases hkeys : entity.columns.filter (·.primaryKey) with
  | nil => rfl
  | cons c rest =>
    rw [hkeys, List.length_cons] at h
    have hrest : rest = [] := List.length_eq_zero_iff.mp (by omega)
    rw [hrest]
    rfl

theorem length_keys_le : (entity.columns.filter (·.primaryKey)).length ≤ entity.pkCols.length := by
  unfold SqliteEntity.pkCols
  dsimp only
  split
  next h =>
    have hnil := List.length_eq_zero_iff.mpr (List.isEmpty_iff.mp h)
    rw [List.length_map] at hnil
    omega
  next => rw [List.length_map]

theorem filter_not_auto (h : ∀ c ∈ entity.columns, c.auto → c.primaryKey) :
    entity.columns.filter (fun c => !c.auto) =
      entity.columns.filter fun c => !(c.primaryKey && c.auto) := by
  apply List.filter_congr
  intro c hc
  cases hauto : c.auto with
  | false => simp
  | true => simp [h c hc hauto]

theorem filter_updatable (h : ∀ c ∈ entity.columns, c.auto → c.primaryKey) :
    entity.columns.filter (fun c => !c.primaryKey && !c.auto) =
      entity.columns.filter fun c => !c.primaryKey := by
  apply List.filter_congr
  intro c hc
  cases hauto : c.auto with
  | false => simp
  | true => simp [h c hc hauto]

theorem insertStatement_eq (h : SimpleKey entity.columns) :
    insertStatement entity.tableName entity.columns = entity.insertStatement := by
  unfold insertStatement SqliteEntity.insertStatement
  rw [filter_not_auto h.2]

theorem updateStatement_eq (h : SimpleKey entity.columns) :
    updateStatement entity.tableName entity.columns = entity.updateStatement := by
  unfold updateStatement SqliteEntity.updateStatement
  dsimp only
  rw [filter_updatable h.2, pkCols_eq h.1, List.length_map]
  rfl

theorem deleteStatement_eq (h : SimpleKey entity.columns) :
    deleteStatement entity.tableName entity.pkColName = entity.deleteStatement := by
  unfold deleteStatement SqliteEntity.deleteStatement
  rw [pkCols_eq h.1]
  rfl

theorem updateValues_eq (h : SimpleKey entity.columns) (vals : KeyedColumn → SqlValue)
    (key : List SqlValue) : updateValues entity.columns vals key = entity.updateValues vals key := by
  unfold updateValues SqliteEntity.updateValues
  rw [filter_updatable h.2]

theorem insertValues_eq (h : SimpleKey entity.columns) (vals : KeyedColumn → SqlValue) :
    insertValues entity.columns vals = entity.insertValues vals := by
  unfold insertValues SqliteEntity.insertValues
  rw [filter_not_auto h.2]

theorem own_slots_insert {slot : Text × Nat} (h : slot ∈ entity.insertStatement.slots) :
    slot.1 ∈ "id".toList :: entity.columns.map (·.name) :=
  mem_names (List.fst_mem_of_mem_zipIdx h)

theorem own_slots_update {slot : Text × Nat} (h : slot ∈ entity.updateStatement.slots) :
    slot.1 ∈ "id".toList :: entity.columns.map (·.name) := by
  rcases List.mem_append.mp h with h | h
  · exact mem_names (List.fst_mem_of_mem_zipIdx h)
  · exact mem_pkCols (List.fst_mem_of_mem_zipIdx h)

theorem own_slots_delete {slot : Text × Nat} (h : slot ∈ entity.deleteStatement.slots) :
    slot.1 ∈ "id".toList :: entity.columns.map (·.name) :=
  mem_pkCols (List.fst_mem_of_mem_zipIdx h)

theorem agrees_of_simpleKey (h : SimpleKey entity.columns) : d.Agrees entity := by
  have hinsert : ∀ vals, d.SameEffect entity (insertStatement entity.tableName entity.columns)
      entity.insertStatement (insertValues entity.columns vals) (entity.insertValues vals) :=
    fun vals => .of_eq (insertStatement_eq h) (insertValues_eq h vals) rfl
      fun _ => own_slots_insert
  have hupdate : ∀ vals, ∀ key : List SqlValue,
      d.SameEffect entity (updateStatement entity.tableName entity.columns) entity.updateStatement
        (updateValues entity.columns vals key) (entity.updateValues vals key) :=
    fun vals key => .of_eq (updateStatement_eq h) (updateValues_eq h vals key) rfl
      fun _ => own_slots_update
  have hdelete : ∀ key : List SqlValue,
      d.SameEffect entity (deleteStatement entity.tableName entity.pkColName)
        entity.deleteStatement key key :=
    fun key => .of_eq (deleteStatement_eq h) rfl rfl fun _ => own_slots_delete
  refine ⟨hinsert, fun vals key _ => hupdate vals key, fun key _ => hdelete key, ?_, ?_, ?_, ?_,
    ?_, ?_⟩
  · intro t reads hreads vals key hkey rows rows' hexec
    rw [hupdate vals key t reads hreads rows] at hexec
    exact entity.exec_updateStatement hkey hexec
  · intro t reads hreads key hkey rows rows' hexec
    rw [hdelete key t reads hreads rows] at hexec
    exact entity.exec_deleteStatement hkey hexec
  · rw [updateStatement_eq h]
    exact List.zipIdx_map_fst 1 _
  · intro vals
    rw [insertStatement_eq h, insertValues_eq h]
    exact entity.params_insertStatement vals
  · intro vals key hkey
    rw [updateStatement_eq h, updateValues_eq h]
    exact entity.params_updateStatement vals hkey
  · intro key hkey
    rw [deleteStatement_eq h]
    exact entity.params_deleteStatement hkey

/-- One placeholder in the `WHERE` is one key column. -/
theorem Agrees.length_keys (h : d.Agrees entity) :
    (entity.columns.filter (·.primaryKey)).length ≤ 1 := by
  have hparams := h.numbers_delete (List.replicate entity.pkCols.length .null)
    List.length_replicate
  have hlength := congrArg List.length hparams
  rw [List.length_range', List.length_replicate] at hlength
  have hone : (deleteStatement entity.tableName entity.pkColName).params.length = 1 := rfl
  have hkeys := @length_keys_le _ _ entity
  omega

/-- Every other column is written, so none of them is left to the database. -/
theorem Agrees.primaryKey_of_auto (h : d.Agrees entity) {c : KeyedColumn} (hc : c ∈ entity.columns)
    (hauto : c.auto) : c.primaryKey := by
  have hwrites := congrArg List.length h.writes
  have hsets : (updateStatement entity.tableName entity.columns).sets.map (·.1) =
      (entity.columns.filter fun c => !c.primaryKey && !c.auto).map (·.name) :=
    List.zipIdx_map_fst 1 _
  rw [hsets, List.length_map, List.length_map] at hwrites
  have hfilter : entity.columns.filter (fun c => !c.primaryKey && !c.auto) =
      (entity.columns.filter fun c => !c.primaryKey).filter fun c => !c.auto := by
    rw [List.filter_filter]
    exact List.filter_congr fun c _ => Bool.and_comm ..
  rw [hfilter, List.length_filter_eq_length_iff] at hwrites
  by_contra hkey
  have hmem : c ∈ entity.columns.filter fun c => !c.primaryKey :=
    List.mem_filter.mpr ⟨hc, by simpa using hkey⟩
  have hnot := hwrites c hmem
  rw [hauto] at hnot
  exact absurd hnot Bool.false_ne_true

/-- With a key of several columns the shared update fails on every table: the key's values are
more than its placeholders. -/
theorem exec_updateStatement_composite {C : Type} [DecidableEq C] (t : SqlTable C SqlValue)
    (f : Text → C) (h : 1 < (entity.columns.filter (·.primaryKey)).length)
    (vals : KeyedColumn → SqlValue) {key : List SqlValue} (hkey : key.length = entity.pkCols.length)
    (rows : List (C → SqlValue)) :
    t.exec ((updateStatement entity.tableName entity.columns).map f)
      (updateValues entity.columns vals key) rows = none := by
  have hparams := SqlStatement.params_update entity.tableName
    ((entity.columns.filter fun c => !c.primaryKey && !c.auto).map (·.name)) [entity.pkColName]
  rw [List.length_map, List.length_singleton] at hparams
  have harity : (updateStatement entity.tableName entity.columns).arity = _ :=
    SqlStatement.arity_of_params hparams
  have hkeys := @length_keys_le _ _ entity
  apply SqlTable.exec_eq_none_of_arity
  unfold updateValues
  rw [SqlStatement.arity_map, harity, List.length_append, List.length_map, hkey]
  omega

/-- Given the first of them alone, the shared deletion takes every row that shares it. -/
theorem exec_deleteStatement_first {C : Type} [DecidableEq C] {t : SqlTable C SqlValue}
    {f : Text → C} {v : SqlValue} {rows rows' : List (C → SqlValue)}
    (h : t.exec ((deleteStatement entity.tableName entity.pkColName).map f) [v] rows =
      some rows') :
    rows' = rows.filter fun row => !t.same (f entity.pkColName) (row (f entity.pkColName)) v := by
  have hlength : [v].length = [f entity.pkColName].length := rfl
  have hrows := SqlTable.exec_delete hlength h
  simpa [SqlTable.isAt] using hrows

/-- The shared statements and the repository's own agree where the key is one column and no other
column is the database's to fill in. -/
theorem statements_agree (d : SqlDialect) (entity : SqliteEntity T Id) :
    d.Agrees entity ↔ SimpleKey entity.columns := by
  constructor
  · intro h
    exact ⟨h.length_keys, fun c hc hauto => h.primaryKey_of_auto hc hauto⟩
  · exact agrees_of_simpleKey

end

end SqlDialect

section

def pairEntity : SqliteEntity Unit Unit where
  tableName := "t".toList
  columns := [⟨⟨"a".toList, "a".toList, .integer⟩, true, false⟩,
    ⟨⟨"b".toList, "b".toList, .integer⟩, true, false⟩]
  id _ := ()
  toValue _ := .ok .null
  fromValue _ := .ok ()
  idToValue _ := .ok .null
  print _ := []
  parse _ := none

def pairTable : SqlTable Text SqlValue where
  name := "t".toList
  has c := c == "a".toList || c == "b".toList
  same _ v w := match v, w with
    | .integer m, .integer n => m == n
    | _, _ => false
  store _ v := v
  fill _ _ := .null
  emptyRow := false
  accepts _ := true

def pairRow (a b : Int64) (c : Text) : SqlValue := .integer (if c = "a".toList then a else b)

/-- Of the rows (1, 1) and (1, 2) the repository removes the one that it is asked to; the shared
deletion fails with both values of the key and removes both rows with the first. -/
theorem delete_pair :
    ¬ SqlDialect.sqlite.Agrees pairEntity ∧
      (pairTable.exec pairEntity.deleteStatement [.integer 1, .integer 1]
        [pairRow 1 1, pairRow 1 2]).map List.length = some 1 ∧
      (pairTable.exec (SqlDialect.deleteStatement "t".toList "a".toList) [.integer 1, .integer 1]
        [pairRow 1 1, pairRow 1 2]).map List.length = none ∧
      (pairTable.exec (SqlDialect.deleteStatement "t".toList "a".toList) [.integer 1]
        [pairRow 1 1, pairRow 1 2]).map List.length = some 0 := by
  refine ⟨fun h => ?_, by decide +kernel, by decide +kernel, by decide +kernel⟩
  have hkeys := h.length_keys
  exact absurd hkeys (by decide)

end

end Kernway
