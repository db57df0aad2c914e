import Kernway.SqliteQuery

namespace Kernway

/-- What an entity tells of its table. -/
structure EntityTable where
  tableName : Text
  columns : List ColumnDef

inductive Filter
  | compare (op : CompareOp) (col : Text) (val : SqlValue)
  | like (col pat : Text)
  | in_ (col : Text) (vals : List SqlValue)
  | between (col : Text) (lo hi : SqlValue)
  | isNull (col : Text)
  | isNotNull (col : Text)

structure SqliteQueryBuilder where
  filters : List Filter := []
  spec : Option Spec := none
  order : List (Text × SortDir) := []
  lim : Option UInt64 := none
  off : UInt64 := 0
  error : Option OrmError := none

/-- A condition of the `WHERE` clause; an empty list of the flat filters is `1 = 0`. -/
inductive Condition
  | expr (e : SqlExpr)
  | never

def Condition.render : Condition → Text
  | expr e => e.render
  | never => "1 = 0".toList

namespace SqliteQueryBuilder

variable (entity : EntityTable)

def unknownField (field : Text) : OrmError :=
  .query ("unknown field '".toList ++ field ++ "' for entity '".toList ++ entity.tableName ++
    "'".toList)

/-- The builder keeps the first error. -/
def resolveCol (b : SqliteQueryBuilder) (field : Text) : SqliteQueryBuilder × Option Text :=
  match columnForField entity.columns field with
  | some c => (b, some c.name)
  | none => ({ b with error := b.error.or (some (unknownField entity field)) }, none)

def validateSpec (b : SqliteQueryBuilder) : Spec → SqliteQueryBuilder
  | .and x y | .or x y => validateSpec (validateSpec b x) y
  | .not x => validateSpec b x
  | .compare _ f _ | .like f _ | .in_ f _ | .between f _ _ | .isNull f | .isNotNull f =>
    (b.resolveCol entity f).1

/-- A flat filter on a field that is a column. -/
def pushFilter (b : SqliteQueryBuilder) (field : Text) (filter : Text → Filter) :
    SqliteQueryBuilder :=
  match b.resolveCol entity field with
  | (b, some col) => { b with filters := b.filters ++ [filter col] }
  | (b, none) => b

def pushOrder (b : SqliteQueryBuilder) (field : Text) (dir : SortDir) : SqliteQueryBuilder :=
  match b.resolveCol entity field with
  | (b, some col) => { b with order := b.order ++ [(col, dir)] }
  | (b, none) => b

def call (b : SqliteQueryBuilder) : QueryCall → SqliteQueryBuilder
  | .compare op f v =>
    b.pushFilter entity f fun col => .compare op col (filterValueForField entity.columns f v)
  | .like f pattern => b.pushFilter entity f fun col => .like col pattern
  | .in_ f vs =>
    b.pushFilter entity f fun col => .in_ col (vs.map (filterValueForField entity.columns f))
  | .between f lo hi => b.pushFilter entity f fun col =>
    .between col (filterValueForField entity.columns f lo) (filterValueForField entity.columns f hi)
  | .isNull f => b.pushFilter entity f .isNull
  | .isNotNull f => b.pushFilter entity f .isNotNull
  | .spec spec => { b.validateSpec entity spec with spec := some spec }
  | .orderByAsc f => b.pushOrder entity f .asc
  | .orderByDesc f => b.pushOrder entity f .desc
  | .limit n => { b with lim := some n }
  | .offset n => { b with off := n }
  | .with_ _ => b

/-- The builder after some calls. -/
def build (calls : List QueryCall) : SqliteQueryBuilder := calls.foldl (call entity) {}

/-- One turn of the loop over the flat filters. -/
def condition (params : List SqlValue) : Filter → Condition × List SqlValue
  | .compare op col val => (.expr (.compare op col (params.length + 1)), params ++ [val])
  | .like col pat => (.expr (.like col (params.length + 1)), params ++ [.text pat])
  | .in_ col vals =>
    if vals.isEmpty then (.never, params)
    else (.expr (.isIn col ((List.range vals.length).map fun offset => params.length + offset + 1)),
      params ++ vals)
  | .between col lo hi =>
    let start := params.length + 1
    (.expr (.between col start (start + 1)), params ++ [lo, hi])
  | .isNull col => (.expr (.isNull col), params)
  | .isNotNull col => (.expr (.isNotNull col), params)

def flatConditions (params : List SqlValue) : List Filter → List Condition × List SqlValue
  | [] => ([], params)
  | filter :: filters =>
    let (part, params) := condition params filter
    let (parts, params) := flatConditions params filters
    (part :: parts, params)

def conditions (b : SqliteQueryBuilder) : List Condition × List SqlValue :=
  let (parts, params) := flatConditions [] b.filters
  match b.spec with
  | none => (parts, params)
  | some spec =>
    let (expr, params) := specToSql entity.columns spec params
    (parts ++ [.expr expr], params)

def buildWhereClause (b : SqliteQueryBuilder) : Text × List SqlValue :=
  let (parts, params) := b.conditions entity
  if parts.isEmpty then ([], params)
  else (" WHERE ".toList ++ " AND ".toList.intercalate (parts.map Condition.render), params)

def sortPart : Text × SortDir → Text
  | (col, .asc) => col ++ " ASC".toList
  | (col, .desc) => col ++ " DESC".toList

def orderClause (b : SqliteQueryBuilder) : Text :=
  if b.order.isEmpty then []
  else " ORDER BY ".toList ++ ", ".toList.intercalate (b.order.map sortPart)

def limitClause (b : SqliteQueryBuilder) : Text :=
  match b.lim with
  | some n => " LIMIT ".toList ++ decimal n
  | none => []

def offsetClause (b : SqliteQueryBuilder) : Text :=
  if 0 < b.off then " OFFSET ".toList ++ decimal b.off else []

def buildSelectQuery (b : SqliteQueryBuilder) : Text × List SqlValue :=
  let (whereClause, params) := b.buildWhereClause entity
  ("SELECT ".toList ++ ", ".toList.intercalate (entity.columns.map ColumnDef.name) ++
    " FROM ".toList ++ entity.tableName ++ whereClause ++ b.orderClause ++ b.limitClause ++
    b.offsetClause, params)

def buildCountQuery (b : SqliteQueryBuilder) : Text × List SqlValue :=
  let (whereClause, params) := b.buildWhereClause entity
  ("SELECT COUNT(*) FROM ".toList ++ entity.tableName ++ whereClause, params)

end SqliteQueryBuilder

/-- What the connection answers to a statement with its parameters. -/
structure SqliteConnection (T : Type) where
  poisoned : Bool
  rows : Text → List SqlValue → Except OrmError (List T)
  count : Text → List SqlValue → Except OrmError Int64

/-- What a terminal operation comes to, and the statements it ran. -/
structure Ran (α : Type) where
  statements : List (Text × List SqlValue)
  result : Except OrmError α

namespace Ran

variable {α β : Type}

def fail (e : OrmError) : Ran α := ⟨[], .error e⟩

def bind (r : Ran α) (f : α → Ran β) : Ran β :=
  match r.result with
  | .ok a => ⟨r.statements ++ (f a).statements, (f a).result⟩
  | .error e => ⟨r.statements, .error e⟩

def map (f : α → β) (r : Ran α) : Ran β := ⟨r.statements, r.result.map f⟩

end Ran

namespace SqliteQueryBuilder

variable {T : Type} (entity : EntityTable) (conn : SqliteConnection T)

def poisonError : OrmError :=
  .transaction "mutex poisoned: poisoned lock: another task failed inside".toList

/-- A statement on the locked connection. -/
def execute {α : Type} (answer : Text → List SqlValue → Except OrmError α)
    (statement : Text × List SqlValue) : Ran α :=
  if conn.poisoned then .fail poisonError
  else ⟨[statement], answer statement.1 statement.2⟩

def fetchAll (b : SqliteQueryBuilder) : Ran (List T) :=
  match b.error with
  | some e => .fail e
  | none => execute conn conn.rows (b.buildSelectQuery entity)

def fetchOne (b : SqliteQueryBuilder) : Ran (Option T) :=
  (fetchAll entity conn { b with lim := some 1 }).map List.getLast?

def fetchCount (b : SqliteQueryBuilder) : Ran UInt64 :=
  match b.error with
  | some e => .fail e
  | none => (execute conn conn.count (b.buildCountQuery entity)).map Int64.toUInt64

def saturatingMul (a b : UInt64) : UInt64 :=
  if a.toNat * b.toNat < 2 ^ 64 then a * b else .ofNat (2 ^ 64 - 1)

def fetchPage (b : SqliteQueryBuilder) (page size : UInt64) : Ran (Page T) :=
  match b.error with
  | some e => .fail e
  | none =>
    (execute conn conn.count (b.buildCountQuery entity)).bind fun total =>
      if size = 0 then ⟨[], .ok (Page.new [] total.toUInt64 page size)⟩
      else (fetchAll entity conn { b with off := saturatingMul page size, lim := some size }).map
        fun items => Page.new items total.toUInt64 page size

end SqliteQueryBuilder

end Kernway
