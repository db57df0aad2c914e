import Kernway.SqliteRepository
import Mathlib.Data.List.Nodup

namespace Kernway

/-- The cheaper paths do what the bodies of the trait do, on these arguments. -/
structure BulkAgree {S T Id : Type} (cheaper defaults : BulkOperations S T Id) (s : S)
    (ids : List Id) (id : Id) (entities : List T) : Prop where
  findAllByIds : cheaper.findAllByIds ids s = defaults.findAllByIds ids s
  existsById : cheaper.existsById id s = defaults.existsById id s
  count : cheaper.count s = defaults.count s
  saveAll : cheaper.saveAll entities s = defaults.saveAll entities s
  deleteAllByIds : cheaper.deleteAllByIds ids s = defaults.deleteAllByIds ids s

namespace Repository

variable {S T Id : Type} (repo : Repository S T Id)

theorem foldl_collectSave_error (entities : List T) (e : OrmError) (s : S) :
    entities.foldl repo.collectSave (.error e, s) = (.error e, s) := by
  induction entities with
  | nil => rfl
  | cons entity entities ih => exact ih

theorem foldl_collectSave (entities : List T) (before : List T) (s : S) :
    entities.foldl repo.collectSave (.ok before, s) =
      ((repo.saveAll entities s).1.map (before ++ ·), (repo.saveAll entities s).2) := by
  induction entities generalizing before s with
  | nil => simp [saveAll, Except.map]
  | cons entity entities ih =>
    rw [List.foldl_cons]
    unfold saveAll
    cases hsave : repo.save entity s with
    | mk result s' =>
      cases result with
      | error e =>
        have hstep : repo.collectSave (.ok before, s) entity = (.error e, s') := by
          simp [collectSave, hsave]
        rw [hstep]
        exact foldl_collectSave_error repo entities e s'
      | ok stored =>
        have hstep : repo.collectSave (.ok before, s) entity = (.ok (before ++ [stored]), s') := by
          simp [collectSave, hsave]
        rw [hstep, ih (before ++ [stored]) s']
        cases hall : (repo.saveAll entities s').1 with
        | error e => simp [hall, Except.map]
        | ok out => simp [hall, Except.map]

theorem collectSaves_eq_saveAll : repo.collectSaves = repo.saveAll := by
  funext entities s
  have hfold := foldl_collectSave repo entities [] s
  unfold collectSaves
  rw [hfold]
  cases hall : repo.saveAll entities s with
  | mk out s' =>
    cases out with
    | error e => rfl
    | ok out => simp [Except.map]

end Repository

namespace InMemoryRepository

variable {T Id J : Type} [DecidableEq Id] (entity : MemoryEntity T Id J)
  (serialize : T → SerialEntity) (repo : InMemoryRepository T Id)

theorem findAllByIds_default (ids : List Id) :
    (primitives entity serialize).findAllByIds ids repo =
      .ok (ids.filterMap fun id => repo.store.lookup id) := by
  induction ids with
  | nil => rfl
  | cons id ids ih =>
    unfold Repository.findAllByIds
    rw [ih]
    cases hrow : repo.store.lookup id with
    | none => simp [primitives, findByIdSync, hrow, bind, Except.bind, pure, Except.pure]
    | some row => simp [primitives, findByIdSync, hrow, bind, Except.bind, pure, Except.pure]

theorem deleteAllByIds_default (ids : List Id) :
    (primitives entity serialize).deleteAllByIds ids repo = deleteAllByIdsSync ids repo := by
  induction ids generalizing repo with
  | nil => rfl
  | cons id ids ih => exact ih _

theorem bulkAgree (ids : List Id) (id : Id) (entities : List T) :
    BulkAgree (overrides entity serialize) (primitives entity serialize).defaults repo ids id
      entities where
  findAllByIds := (findAllByIds_default entity serialize repo ids).symm
  existsById := by
    have hmem : decide (id ∈ repo.store) = (repo.store.lookup id).isSome := by
      rw [Bool.eq_iff_iff, decide_eq_true_iff, AList.lookup_isSome]
    show Except.ok _ = Except.ok _
    rw [hmem]
  count := by
    have hall : ({} : MemoryQueryBuilder).collectItems serialize
        (repo.store.entries.map Sigma.snd) = repo.store.entries.map Sigma.snd := by
      simp [MemoryQueryBuilder.collectItems, MemoryQueryBuilder.matchesFilters]
    show Except.ok _ = Except.ok _
    rw [hall, List.length_map]
  saveAll := congrFun (congrFun (Repository.collectSaves_eq_saveAll _) entities) repo
  deleteAllByIds := (deleteAllByIds_default entity serialize repo ids).symm

end InMemoryRepository

section

variable {T : Type} {table l : List T} {a b : T}

theorem not_both_sublist (hnodup : table.Nodup) (hab : [a, b].Sublist table) :
    ¬ [b, a].Sublist table := by
  intro hba
  induction table with
  | nil => cases hab
  | cons x table ih =>
    have hx := (List.nodup_cons.mp hnodup).1
    cases hab with
    | cons _ hab =>
      cases hba with
      | cons _ hba => exact ih (List.nodup_cons.mp hnodup).2 hab hba
      | cons_cons _ hba => exact hx (hab.subset (by simp))
    | cons_cons _ hab =>
      cases hba with
      | cons _ hba => exact hx (hba.subset (by simp))
      | cons_cons _ hba => exact hx (hba.subset (by simp))

/-- The selected rows, in some order, are the filtered table when they stand in its order. -/
theorem eq_filter_iff {p : T → Bool} (hnodup : table.Nodup)
    (hmem : ∀ row, row ∈ l ↔ row ∈ table.filter p) :
    l = table.filter p ↔ l.Pairwise fun a b => [a, b].Sublist table := by
  have hfilter : (table.filter p).Pairwise fun a b => [a, b].Sublist table :=
    List.pairwise_of_forall_sublist fun hab => hab.trans List.filter_sublist
  constructor
  · intro heq
    rw [heq]
    exact hfilter
  · intro hl
    have hdistinct : l.Nodup := hl.imp fun hab heq => by
      subst heq
      exact not_both_sublist hnodup hab hab
    apply List.Perm.eq_of_pairwise _ hl hfilter
      ((List.perm_ext_iff_of_nodup hdistinct (hnodup.filter p)).mpr hmem)
    intro a b _ _ hab hba
    exact absurd hba (not_both_sublist hnodup hab)

end

/-- How a connection answers the two lookups of a table with a scalar key: `table` in the order in
which it visits the rows, `names` which of them has a key, `stored` what it keeps of a row. -/
structure ServesIds {D T Id : Type} (entity : SqliteEntity T Id) (driver : SqliteDriver D) (d : D)
    (table : List T) (names : SqlValue → T → Bool) (stored : T → List SqlValue)
    (maxVariables : Nat) : Prop where
  scalar : ∀ id v, entity.idToValue id = .ok v → ∀ parts, v ≠ .array parts
  nodup : table.Nodup
  unique : ∀ v, ∀ a ∈ table, ∀ b ∈ table, names v a = true → names v b = true → a = b
  reads : ∀ row ∈ table, entity.rowToEntity (stored row) = .ok row
  prepared : driver.prepare entity.selectById d = .ok ()
  first : ∀ v, driver.first entity.selectById [v] d = .ok ((table.find? (names v)).map stored)
  rows : ∀ vs, vs ≠ [] → vs.length ≤ maxVariables →
    driver.rows (entity.selectByIds vs.length) vs d =
      .ok ((table.filter fun row => vs.any (names · row)).map stored)
  tooMany : ∀ vs, maxVariables < vs.length →
    ∃ e, driver.rows (entity.selectByIds vs.length) vs d = .error e

namespace SqliteEntity

variable {D T Id : Type} (entity : SqliteEntity T Id) (driver : SqliteDriver D)

/-- The id's SQL value is the row's key. -/
def NamesRow (names : SqlValue → T → Bool) (id : Id) (row : T) : Prop :=
  ∃ v, entity.idToSql id = .ok v ∧ names v row = true

/-- Of two ids the first one's row comes first in the table; so no row is named twice. -/
def InTableOrder (names : SqlValue → T → Bool) (table : List T) (ids : List Id) : Prop :=
  ids.Pairwise fun id id' => ∀ row ∈ table, entity.NamesRow names id row →
    ∀ row' ∈ table, entity.NamesRow names id' row' → [row, row'].Sublist table

section

variable {d : D} {table : List T} {names : SqlValue → T → Bool} {stored : T → List SqlValue}
  {maxVariables : Nat} (hserves : ServesIds entity driver d table names stored maxVariables)

/-- The row that the lookup of an id gives. -/
def rowOf (names : SqlValue → T → Bool) (table : List T) (id : Id) : Option T :=
  match entity.idToSql id with
  | .ok v => table.find? (names v)
  | .error _ => none

theorem rowOf_ok {id : Id} {v : SqlValue} (hid : entity.idToSql id = .ok v) :
    entity.rowOf names table id = table.find? (names v) := by
  unfold rowOf
  rw [hid]

include hserves in
theorem rowOf_eq_some_iff {id : Id} {row : T} :
    entity.rowOf names table id = some row ↔ row ∈ table ∧ entity.NamesRow names id row := by
  unfold NamesRow
  cases hid : entity.idToSql id with
  | error e => simp [rowOf, hid]
  | ok v =>
    rw [rowOf_ok entity hid]
    constructor
    · intro hfind
      exact ⟨List.mem_of_find?_eq_some hfind, v, rfl, List.find?_some hfind⟩
    · rintro ⟨hrow, v', hv', hnames⟩
      cases hv'
      cases hfind : table.find? (names v) with
      | none => exact absurd hnames (List.find?_eq_none.mp hfind row hrow)
      | some found =>
        rw [hserves.unique v found (List.mem_of_find?_eq_some hfind) row hrow
          (List.find?_some hfind) hnames]

include hserves in
theorem idToSqlValues_scalar (id : Id) :
    entity.idToSqlValues id = (entity.idToSql id).map fun v => [v] := by
  unfold idToSqlValues idToSql mapSerde
  cases hv : entity.idToValue id with
  | error e => rfl
  | ok v =>
    have hscalar := hserves.scalar id v hv
    cases v with
    | array parts => exact absurd rfl (hscalar parts)
    | null => rfl
    | bool b => rfl
    | number n =>
      show (do let value ← entity.scalarToSql (.number n); return [value]) =
        (entity.scalarToSql (.number n)).map fun v => [v]
      cases entity.scalarToSql (.number n) <;> rfl
    | string s => rfl
    | object fields => rfl

include hserves in
theorem findByIdSync_scalar (id : Id) : findByIdSync entity driver id d =
    (entity.idToSql id).map fun _ => entity.rowOf names table id := by
  unfold findByIdSync
  rw [hserves.prepared, idToSqlValues_scalar entity driver hserves]
  cases hid : entity.idToSql id with
  | error e => rfl
  | ok v =>
    show (do
      let row ← driver.first entity.selectById [v] d
      row.mapM entity.rowToEntity) = Except.ok (entity.rowOf names table id)
    rw [hserves.first, rowOf_ok entity hid]
    cases hfind : table.find? (names v) with
    | none => simp [bind, Except.bind, pure, Except.pure]
    | some row =>
      have hread := hserves.reads row (List.mem_of_find?_eq_some hfind)
      simp [bind, Except.bind, hread]

include hserves in
theorem findAllByIds_default (ids : List Id) : (primitives entity driver).findAllByIds ids d =
    (ids.mapM entity.idToSql).map fun _ => ids.filterMap (entity.rowOf names table) := by
  induction ids with
  | nil => rfl
  | cons id ids ih =>
    unfold Repository.findAllByIds
    show (do
      let row ← findByIdSync entity driver id d
      let out ← (primitives entity driver).findAllByIds ids d
      return row.toList ++ out) = _
    rw [ih, findByIdSync_scalar entity driver hserves, List.mapM_cons]
    cases hid : entity.idToSql id with
    | error e => rfl
    | ok v =>
      cases hids : ids.mapM entity.idToSql with
      | error e => rfl
      | ok vs =>
        show Except.ok ((entity.rowOf names table id).toList ++
          ids.filterMap (entity.rowOf names table)) = Except.ok _
        cases hrow : entity.rowOf names table id with
        | none => simp [hrow]
        | some row => simp [hrow]

include hserves in
theorem findAllByIdsSync_scalar (hscalar : entity.pkCols.length ≤ 1) {ids : List Id}
    {vs : List SqlValue} (hvs : ids.mapM entity.idToSql = .ok vs)
    (hfew : ids.length ≤ maxVariables) : findAllByIdsSync entity driver ids d =
      .ok (table.filter fun row => vs.any (names · row)) := by
  have hlength := length_of_mapM hvs
  unfold findAllByIdsSync
  cases ids with
  | nil =>
    cases hvs
    simp
  | cons id ids =>
    have hne : vs ≠ [] := by
      intro hnil
      rw [hnil] at hlength
      cases hlength
    rw [if_neg (by simp), if_neg (by omega), hvs, ← hlength]
    show (do
      let rows ← driver.rows (entity.selectByIds vs.length) vs d
      rows.mapM entity.rowToEntity) = _
    rw [hserves.rows vs hne (by omega)]
    show ((table.filter fun row => vs.any (names · row)).map stored).mapM entity.rowToEntity = _
    have hreads : ∀ row ∈ table.filter fun row => vs.any (names · row),
        entity.rowToEntity (stored row) = .ok row := fun row hrow =>
      hserves.reads row (List.mem_filter.mp hrow).1
    have hmap : (table.filter fun row => vs.any (names · row)).mapM
        (fun row => entity.rowToEntity (stored row)) =
        .ok ((table.filter fun row => vs.any (names · row)).map fun row => row) := mapM_ok hreads
    rw [List.map_id_fun'] at hmap
    rw [List.mapM_map]
    exact hmap

include hserves in
theorem findAllByIdsSync_tooMany (hscalar : entity.pkCols.length ≤ 1) {ids : List Id}
    {vs : List SqlValue} (hvs : ids.mapM entity.idToSql = .ok vs)
    (hmany : maxVariables < ids.length) : ∃ e, findAllByIdsSync entity driver ids d = .error e := by
  have hlength := length_of_mapM hvs
  obtain ⟨e, he⟩ := hserves.tooMany vs (by omega)
  have hne : ¬ ids.isEmpty = true := by
    rw [List.isEmpty_iff_length_eq_zero]
    omega
  refine ⟨e, ?_⟩
  unfold findAllByIdsSync
  rw [if_neg hne, if_neg (by omega), hvs, ← hlength]
  show (do
    let rows ← driver.rows (entity.selectByIds vs.length) vs d
    rows.mapM entity.rowToEntity) = _
  rw [he]
  rfl

theorem findAllByIdsSync_error (hscalar : entity.pkCols.length ≤ 1) {ids : List Id} {e : OrmError}
    (he : ids.mapM entity.idToSql = .error e) :
    findAllByIdsSync entity driver ids d = .error e := by
  unfold findAllByIdsSync
  cases ids with
  | nil => cases he
  | cons id ids =>
    rw [if_neg (by simp), if_neg (by omega), he]
    rfl

theorem mem_vs_iff {ids : List Id} {vs : List SqlValue} (hvs : ids.mapM entity.idToSql = .ok vs)
    (row : T) : vs.any (names · row) = true ↔ ∃ id ∈ ids, entity.NamesRow names id row := by
  induction ids generalizing vs with
  | nil =>
    cases hvs
    simp
  | cons id ids ih =>
    rw [List.mapM_cons] at hvs
    obtain ⟨v, hv, hvs⟩ := bind_eq_ok_iff.mp hvs
    obtain ⟨vs', hvs', hvs⟩ := bind_eq_ok_iff.mp hvs
    cases hvs
    have hhead : entity.NamesRow names id row ↔ names v row = true := by
      constructor
      · rintro ⟨v', hv', hnames⟩
        rw [hv] at hv'
        cases hv'
        exact hnames
      · intro hnames
        exact ⟨v, hv, hnames⟩
    rw [List.any_cons, Bool.or_eq_true, ih hvs', List.exists_mem_cons_iff, hhead]

include hserves in
theorem filterMap_rowOf_iff {ids : List Id} {vs : List SqlValue}
    (hvs : ids.mapM entity.idToSql = .ok vs) :
    ids.filterMap (entity.rowOf names table) = table.filter (fun row => vs.any (names · row)) ↔
      entity.InTableOrder names table ids := by
  have hmem : ∀ row, row ∈ ids.filterMap (entity.rowOf names table) ↔
      row ∈ table.filter fun row => vs.any (names · row) := by
    intro row
    rw [List.mem_filterMap, List.mem_filter, mem_vs_iff entity hvs]
    constructor
    · rintro ⟨id, hid, hrow⟩
      have hnamed := (rowOf_eq_some_iff entity driver hserves).mp hrow
      exact ⟨hnamed.1, id, hid, hnamed.2⟩
    · rintro ⟨hrow, id, hid, hnamed⟩
      exact ⟨id, hid, (rowOf_eq_some_iff entity driver hserves).mpr ⟨hrow, hnamed⟩⟩
  rw [eq_filter_iff hserves.nodup hmem, List.pairwise_filterMap]
  unfold InTableOrder
  have hrows : ∀ id id', (∀ row, entity.rowOf names table id = some row →
      ∀ row', entity.rowOf names table id' = some row' → [row, row'].Sublist table) ↔
      ∀ row ∈ table, entity.NamesRow names id row →
        ∀ row' ∈ table, entity.NamesRow names id' row' → [row, row'].Sublist table := by
    intro id id'
    simp only [rowOf_eq_some_iff entity driver hserves, and_imp]
  simp only [hrows]

include hserves in
theorem findAllByIdsSync_iff (hscalar : entity.pkCols.length ≤ 1) (ids : List Id) :
    findAllByIdsSync entity driver ids d = (primitives entity driver).findAllByIds ids d ↔
      (∃ id ∈ ids, ∃ e, entity.idToSql id = .error e) ∨
        (ids.length ≤ maxVariables ∧ entity.InTableOrder names table ids) := by
  rw [findAllByIds_default entity driver hserves, ← mapM_error_iff]
  cases hvs : ids.mapM entity.idToSql with
  | error e =>
    rw [findAllByIdsSync_error entity driver hscalar hvs]
    simp [Except.map]
  | ok vs =>
    have hnone : ¬ ∃ e, Except.ok vs = (Except.error e : Except OrmError (List SqlValue)) := by simp
    rw [or_iff_right hnone]
    by_cases hfew : ids.length ≤ maxVariables
    · rw [findAllByIdsSync_scalar entity driver hserves hscalar hvs hfew,
        and_iff_right hfew, ← filterMap_rowOf_iff entity driver hserves hvs]
      simp only [Except.map, Except.ok.injEq]
      exact eq_comm
    · obtain ⟨e, he⟩ := findAllByIdsSync_tooMany entity driver hserves hscalar hvs (by omega)
      rw [he]
      simp [Except.map, hfew]

end

theorem findEach_eq (ids : List Id) (d : D) :
    findEach entity driver ids d = (primitives entity driver).findAllByIds ids d := by
  induction ids with
  | nil => rfl
  | cons id ids ih =>
    unfold findEach Repository.findAllByIds
    rw [ih]
    rfl

theorem findAllByIdsSync_composite (hcomposite : 1 < entity.pkCols.length) (ids : List Id) (d : D) :
    findAllByIdsSync entity driver ids d = (primitives entity driver).findAllByIds ids d := by
  unfold findAllByIdsSync
  rw [if_pos hcomposite, findEach_eq]
  cases ids with
  | nil => rfl
  | cons id ids => rfl

theorem deleteAllByIds_default (ids : List Id) (d : D) :
    (primitives entity driver).deleteAllByIds ids d = deleteAllByIdsSync entity driver ids d := by
  induction ids generalizing d with
  | nil => rfl
  | cons id ids ih =>
    unfold Repository.deleteAllByIds deleteAllByIdsSync andThen
    cases hdelete : deleteByIdSync entity driver id d with
    | mk done d' =>
      have hprimitive : (primitives entity driver).deleteById id d = (done, d') := hdelete
      rw [hprimitive]
      cases done with
      | error e => rfl
      | ok done => exact ih d'

theorem countSync_eq (d : D) : countSync entity driver d = fetchCountSync entity driver d := by
  have hquery : ∀ table : EntityTable, ({} : SqliteQueryBuilder).buildCountQuery table =
      ("SELECT COUNT(*) FROM ".toList ++ table.tableName ++ [], []) := fun _ => rfl
  unfold countSync fetchCountSync countSql
  rw [hquery, List.append_nil]

end SqliteEntity

/-- The in-memory paths are the trait's; those of SQLite are with a composite key, and else where an
id has no SQL value, or where the statement takes the ids and they name rows in the table's order. -/
theorem bulkAgree_iff {T Id J D : Type} [DecidableEq Id] (memory : MemoryEntity T Id J)
    (serialize : T → SerialEntity) (repo : InMemoryRepository T Id) (entity : SqliteEntity T Id)
    (driver : SqliteDriver D) {d : D} {table : List T} {names : SqlValue → T → Bool}
    {stored : T → List SqlValue} {maxVariables : Nat}
    (hserves : entity.pkCols.length ≤ 1 →
      ServesIds entity driver d table names stored maxVariables)
    (ids : List Id) (id : Id) (entities : List T) :
    BulkAgree (InMemoryRepository.overrides memory serialize)
      (InMemoryRepository.primitives memory serialize).defaults repo ids id entities ∧
    (BulkAgree (SqliteEntity.overrides entity driver) (SqliteEntity.primitives entity driver).defaults
        d ids id entities ↔
      1 < entity.pkCols.length ∨ (∃ id ∈ ids, ∃ e, entity.idToSql id = .error e) ∨
        (ids.length ≤ maxVariables ∧ entity.InTableOrder names table ids)) := by
  refine ⟨InMemoryRepository.bulkAgree memory serialize repo ids id entities, ?_⟩
  have hrest : BulkAgree (SqliteEntity.overrides entity driver)
      (SqliteEntity.primitives entity driver).defaults d ids id entities ↔
      SqliteEntity.findAllByIdsSync entity driver ids d =
        (SqliteEntity.primitives entity driver).findAllByIds ids d := by
    constructor
    · intro hagree
      exact hagree.findAllByIds
    · intro hfind
      exact {
        findAllByIds := hfind
        existsById := rfl
        count := SqliteEntity.countSync_eq entity driver d
        saveAll := congrFun (congrFun (Repository.collectSaves_eq_saveAll _) entities) d
        deleteAllByIds := (SqliteEntity.deleteAllByIds_default entity driver ids d).symm }
  rw [hrest]
  by_cases hscalar : entity.pkCols.length ≤ 1
  · rw [SqliteEntity.findAllByIdsSync_iff entity driver (hserves hscalar) hscalar]
    have hnot : ¬ 1 < entity.pkCols.length := by omega
    rw [or_iff_right hnot]
  · have hcomposite : 1 < entity.pkCols.length := by omega
    exact iff_of_true (SqliteEntity.findAllByIdsSync_composite entity driver hcomposite ids d)
      (Or.inl hcomposite)

/-- A table with nothing but a key. -/
def numberEntity : SqliteEntity UInt64 UInt64 where
  tableName := "numbers".toList
  columns := [{ name := "id".toList, field := "id".toList, colType := .bigInt, primaryKey := true,
                auto := false }]
  id n := n
  toValue n := .ok (.object [("id".toList, .number (.posInt n))])
  fromValue
    | .object [(_, .number (.posInt n))] => .ok n
    | _ => .error "invalid type".toList
  idToValue n := .ok (.number (.posInt n))
  print _ := []
  parse _ := none

def numberMemory : MemoryEntity UInt64 UInt64 Json where
  id n := n
  defaultId := 0
  pkField := some "id".toList
  idOfNumber := .ok
  toValue := numberEntity.toValue
  idToValue := numberEntity.idToValue
  isObject
    | .object _ => true
    | _ => false
  insertField _ field v := .object [(field, v)]
  fromValue := numberEntity.fromValue

def numberNames : SqlValue → UInt64 → Bool
  | .integer k, n => k == n.toInt64
  | _, _ => false

def numberRow (n : UInt64) : List SqlValue := [.integer n.toInt64]

/-- The rows that it keeps, in the order in which it visits them. -/
def numberDriver : SqliteDriver (List UInt64) where
  prepare _ _ := .ok ()
  rows _ vs numbers :=
    if vs.length ≤ 32766 then
      .ok ((numbers.filter fun n => vs.any (numberNames · n)).map numberRow)
    else .error (.query "too many SQL variables".toList)
  first _ vs numbers := .ok ((numbers.find? fun n => vs.any (numberNames · n)).map numberRow)
  count _ _ numbers := .ok (.ofNat numbers.length)
  execute _ vs numbers := (.ok (), numbers.filter fun n => !vs.any (numberNames · n))
  lastInsertRowid _ := 0

theorem numberNames_eq {v : SqlValue} {a b : UInt64} (ha : numberNames v a = true)
    (hb : numberNames v b = true) : a = b := by
  cases v with
  | integer k =>
    have heq : a.toInt64 = b.toInt64 := (eq_of_beq ha).symm.trans (eq_of_beq hb)
    exact congrArg Int64.toUInt64 heq
  | null => cases ha
  | real x => cases ha
  | text s => cases ha

theorem numberNames_toInt64 {n row : UInt64} (h : numberNames (.integer n.toInt64) row = true) :
    row = n := by
  have hself : numberNames (.integer n.toInt64) n = true := beq_self_eq_true n.toInt64
  exact numberNames_eq h hself

theorem numberDriver_serves :
    ServesIds numberEntity numberDriver [1, 2] [1, 2] numberNames numberRow 32766 where
  scalar id v hv parts := by
    cases hv
    simp
  nodup := by decide
  unique v a _ b _ ha hb := numberNames_eq ha hb
  reads row hrow := by
    have hcases : row = 1 ∨ row = 2 := by simpa using hrow
    rcases hcases with rfl | rfl
    · rfl
    · rfl
  prepared := rfl
  first v := by
    have hone : (fun n => [v].any (numberNames · n)) = numberNames v := by
      funext n
      rw [List.any_cons, List.any_nil, Bool.or_false]
    show Except.ok _ = Except.ok _
    rw [hone]
  rows vs _ hfew := if_pos hfew
  tooMany vs hmany := ⟨_, if_neg (Nat.not_le.mpr hmany)⟩

theorem numberEntity_namesRow {n row : UInt64} (hn : n = 1 ∨ n = 2)
    (h : numberEntity.NamesRow numberNames n row) : row = n := by
  obtain ⟨v, hv, hnames⟩ := h
  rcases hn with rfl | rfl
  · cases hv
    exact numberNames_toInt64 hnames
  · cases hv
    exact numberNames_toInt64 hnames

theorem bulkAgree_iff_numbers : BulkAgree (SqliteEntity.overrides numberEntity numberDriver)
    (SqliteEntity.primitives numberEntity numberDriver).defaults [1, 2] [1, 2] 1 [] := by
  have horder : numberEntity.InTableOrder numberNames [1, 2] [1, 2] := by
    apply List.pairwise_pair.mpr
    intro row _ hrow row' _ hrow'
    rw [numberEntity_namesRow (Or.inl rfl) hrow, numberEntity_namesRow (Or.inr rfl) hrow']
  exact (bulkAgree_iff numberMemory (fun _ _ => none) ⟨∅, 0⟩ numberEntity numberDriver
    (fun _ => numberDriver_serves) [1, 2] 1 []).2.mpr (Or.inr (Or.inr ⟨by decide, horder⟩))

/-- The ids in another order. -/
theorem not_bulkAgree : ¬ BulkAgree (SqliteEntity.overrides numberEntity numberDriver)
    (SqliteEntity.primitives numberEntity numberDriver).defaults [1, 2] [2, 1] 1 [] := by
  intro hagree
  have hfind := hagree.findAllByIds
  have hcheap : (SqliteEntity.overrides numberEntity numberDriver).findAllByIds [2, 1] [1, 2] =
      .ok [1, 2] := rfl
  have hdefault : (SqliteEntity.primitives numberEntity numberDriver).defaults.findAllByIds [2, 1]
      [1, 2] = .ok [2, 1] := rfl
  rw [hcheap, hdefault] at hfind
  cases hfind

end Kernway
