import Kernway.Decimal
import Kernway.Repository

namespace Kernway

/-- A column of an entity that a repository writes. -/
structure KeyedColumn extends ColumnDef where
  primaryKey : Bool
  auto : Bool

inductive JsonNumber
  | posInt (n : UInt64)
  | negInt (n : Int64)
  | float (x : F64)

inductive Json
  | null
  | bool (b : Bool)
  | number (n : JsonNumber)
  | string (s : Text)
  | array (parts : List Json)
  | object (fields : List (Text × Json))

/-- What the entity's type and serde tell of it; `print` and `parse` are JSON's own text. -/
structure SqliteEntity (T Id : Type) where
  tableName : Text
  columns : List KeyedColumn
  id : T → Id
  toValue : T → Except Text Json
  fromValue : Json → Except Text T
  idToValue : Id → Except Text Json
  print : Json → Text
  parse : Text → Option Json

/-- What a connection does with a statement and its values. -/
structure SqliteDriver (D : Type) where
  prepare : Text → D → Except OrmError Unit
  rows : Text → List SqlValue → D → Except OrmError (List (List SqlValue))
  first : Text → List SqlValue → D → Except OrmError (Option (List SqlValue))
  count : Text → List SqlValue → D → Except OrmError Int64
  execute : Text → List SqlValue → D → Except OrmError Unit × D
  lastInsertRowid : D → Int64

namespace SqliteEntity

variable {D T Id : Type} (entity : SqliteEntity T Id)

def numberToInteger (n : JsonNumber) (ctx : Text) : Except OrmError Int64 :=
  match n with
  | .negInt n => .ok n
  | .posInt n =>
    if n.toNat < 2 ^ 63 then .ok n.toInt64
    else .error (.typeConversion (ctx ++ " value ".toList ++ decimal n ++
      " exceeds SQLite INTEGER range (i64)".toList))
  | .float x =>
    .error (.typeConversion (ctx ++ " is not an integer: ".toList ++
      entity.print (.number (.float x))))

def JsonNumber.asF64 : JsonNumber → F64
  | .posInt n => .ofRat n.toNat
  | .negInt n => .ofRat n.toInt
  | .float x => x

def jsonToSql (v : Json) (col : KeyedColumn) : Except OrmError SqlValue :=
  match v with
  | .null => .ok .null
  | .bool b => .ok (.integer (if b then 1 else 0))
  | .number n =>
    if col.colType = .float then .ok (.real (JsonNumber.asF64 n))
    else
      match n with
      | .float x => .ok (.real x)
      | n => (entity.numberToInteger n ("column '".toList ++ col.name ++ "'".toList)).map .integer
  | .string s => .ok (.text s)
  | other => .ok (.text (entity.print other))

def scalarToSql (v : Json) : Except OrmError SqlValue :=
  match v with
  | .number n => (entity.numberToInteger n "id".toList).map .integer
  | .string s => .ok (.text s)
  | .bool b => .ok (.integer (if b then 1 else 0))
  | .null => .ok .null
  | other => .error (.typeConversion
      ("id must be a scalar (number/string/bool), got ".toList ++ entity.print other))

def jsonInteger (n : Int64) : Json :=
  .number (if 0 ≤ n then .posInt n.toUInt64 else .negInt n)

def sqlToJson (v : SqlValue) (col : KeyedColumn) : Json :=
  match v with
  | .null => .null
  | .integer n => if col.colType = .boolean then .bool (n != 0) else jsonInteger n
  | .real (.finite q) => .number (.float (.finite q))
  | .real _ => .null
  | .text s => if col.colType = .json then (entity.parse s).getD (.string s) else .string s

/-- An entity from the columns of a row; the messages are the driver's. -/
def rowToEntity (row : List SqlValue) : Except OrmError T := do
  let fields ← entity.columns.zipIdx.mapM fun (col, i) =>
    match row[i]? with
    | some v => .ok (col.field, entity.sqlToJson v col)
    | none => .error (.query ("Invalid column index: ".toList ++ Nat.toDigits 10 i))
  (entity.fromValue (.object fields)).mapError fun e =>
    .query ("Conversion error from type Text at index: 0, ".toList ++ e)

def mapSerde {α : Type} (result : Except Text α) : Except OrmError α :=
  result.mapError .typeConversion

def idToSql (id : Id) : Except OrmError SqlValue := do
  let v ← mapSerde (entity.idToValue id)
  entity.scalarToSql v

/-- One value for a scalar key, several for a composite one. -/
def idToSqlValues (id : Id) : Except OrmError (List SqlValue) := do
  let v ← mapSerde (entity.idToValue id)
  match v with
  | .array parts => parts.mapM entity.scalarToSql
  | scalar => do
    let value ← entity.scalarToSql scalar
    return [value]

def pkColName : Text := ((entity.columns.find? (·.primaryKey)).map (·.name)).getD "id".toList

def pkCols : List Text :=
  let cols := (entity.columns.filter (·.primaryKey)).map (·.name)
  if cols.isEmpty then ["id".toList] else cols

def numbered (start : Nat) (n : Nat) : Text := '?' :: Nat.toDigits 10 (start + n)

/-- A predicate over the key's columns, its placeholders numbered from `start`. -/
def pkWhere (start : Nat) : Text :=
  " AND ".toList.intercalate
    (entity.pkCols.zipIdx.map fun (c, i) => c ++ " = ".toList ++ numbered start i)

def isAutoPk : Bool := entity.columns.any fun c => c.primaryKey && c.auto

def isNewAutoEntity (value : T) : Except OrmError Bool :=
  if entity.isAutoPk then do
    let v ← mapSerde (entity.idToValue (entity.id value))
    return match v with
      | .number (.posInt n) => n == 0
      | .number (.negInt n) => n == 0
      | _ => false
  else .ok false

def colList : Text := ", ".toList.intercalate (entity.columns.map (·.name))

/-- `SELECT ... WHERE` the key's columns are the given values. -/
def selectById : Text :=
  "SELECT ".toList ++ entity.colList ++ " FROM ".toList ++ entity.tableName ++ " WHERE ".toList ++
    entity.pkWhere 1

def placeholders (n : Nat) : Text := ", ".toList.intercalate ((List.range n).map (numbered 1))

def selectByIds (n : Nat) : Text :=
  "SELECT ".toList ++ entity.colList ++ " FROM ".toList ++ entity.tableName ++ " WHERE ".toList ++
    entity.pkColName ++ " IN (".toList ++ placeholders n ++ ")".toList

/-- The object's fields; an absent one is null. -/
def fieldOf (fields : List (Text × Json)) (field : Text) : Json :=
  (fields.lookup field).getD .null

def asObject (v : Json) : Except OrmError (List (Text × Json)) :=
  match v with
  | .object fields => .ok fields
  | _ => .error (.typeConversion "entity must serialize as object".toList)

variable (driver : SqliteDriver D)

/-- The rest of an operation on the connection. -/
def andThen {α β : Type} (result : Except OrmError α) (d : D)
    (next : α → D → Except OrmError β × D) : Except OrmError β × D :=
  match result with
  | .ok a => next a d
  | .error e => (.error e, d)

def doInsert (value : T) (d : D) : Except OrmError T × D :=
  let insertCols := entity.columns.filter fun c => !(c.primaryKey && c.auto)
  let sql := "INSERT INTO ".toList ++ entity.tableName ++ " (".toList ++
    ", ".toList.intercalate (insertCols.map (·.name)) ++ ") VALUES (".toList ++
    placeholders insertCols.length ++ ")".toList
  let vals := do
    let json ← mapSerde (entity.toValue value)
    let fields ← asObject json
    insertCols.mapM fun c => entity.jsonToSql (fieldOf fields c.field) c
  andThen vals d fun vals d =>
    let (done, d) := driver.execute sql vals d
    andThen done d fun _ d =>
      if entity.isAutoPk then
        let select := "SELECT ".toList ++ entity.colList ++ " FROM ".toList ++ entity.tableName ++
          " WHERE ".toList ++ entity.pkColName ++ " = ?1".toList
        (do
          let row ← driver.first select [.integer (driver.lastInsertRowid d)] d
          match row with
          | some row => entity.rowToEntity row
          | none => .error .notFound, d)
      else (.ok value, d)

def doUpdate (value : T) (d : D) : Except OrmError T × D :=
  let setCols := entity.columns.filter fun c => !c.primaryKey
  let sql := "UPDATE ".toList ++ entity.tableName ++ " SET ".toList ++
    ", ".toList.intercalate (setCols.zipIdx.map fun (c, i) => c.name ++ " = ".toList ++ numbered 1 i) ++
    " WHERE ".toList ++ entity.pkWhere (setCols.length + 1)
  let vals := do
    let json ← mapSerde (entity.toValue value)
    let fields ← asObject json
    let vals ← setCols.mapM fun c => entity.jsonToSql (fieldOf fields c.field) c
    let key ← entity.idToSqlValues (entity.id value)
    return vals ++ key
  andThen vals d fun vals d =>
    let (done, d) := driver.execute sql vals d
    (done.map fun _ => value, d)

def findByIdSync (id : Id) (d : D) : Except OrmError (Option T) := do
  driver.prepare entity.selectById d
  let idVals ← entity.idToSqlValues id
  let row ← driver.first entity.selectById idVals d
  row.mapM entity.rowToEntity

/-- The lookups one by one, for a composite key. -/
def findEach : List Id → D → Except OrmError (List T)
  | [], _ => .ok []
  | id :: ids, d => do
    let row ← findByIdSync entity driver id d
    let out ← findEach ids d
    return row.toList ++ out

def findAllByIdsSync (ids : List Id) (d : D) : Except OrmError (List T) :=
  if ids.isEmpty then .ok []
  else if 1 < entity.pkCols.length then findEach entity driver ids d
  else do
    let sqlIds ← ids.mapM entity.idToSql
    let rows ← driver.rows (entity.selectByIds ids.length) sqlIds d
    rows.mapM entity.rowToEntity

def countSql : Text := "SELECT COUNT(*) FROM ".toList ++ entity.tableName

def countSync (d : D) : Except OrmError UInt64 :=
  (driver.count entity.countSql [] d).map Int64.toUInt64

def existsByIdSync (id : Id) (d : D) : Except OrmError Bool :=
  (findByIdSync entity driver id d).map Option.isSome

def saveSync (value : T) (d : D) : Except OrmError T × D :=
  andThen (entity.isNewAutoEntity value) d fun isNew d =>
    if isNew then doInsert entity driver value d
    else if entity.isAutoPk then doUpdate entity driver value d
    else andThen (existsByIdSync entity driver (entity.id value) d) d fun found d =>
      if found then doUpdate entity driver value d else doInsert entity driver value d

def deleteByIdSync (id : Id) (d : D) : Except OrmError Unit × D :=
  let sql := "DELETE FROM ".toList ++ entity.tableName ++ " WHERE ".toList ++ entity.pkWhere 1
  andThen (entity.idToSqlValues id) d fun idVals d => driver.execute sql idVals d

def deleteAllByIdsSync : List Id → D → Except OrmError Unit × D
  | [], d => (.ok (), d)
  | id :: ids, d =>
    let (done, d) := deleteByIdSync entity driver id d
    andThen done d fun _ d => deleteAllByIdsSync ids d

/-- `query().fetch_count()`, the builder's own statement. -/
def fetchCountSync (d : D) : Except OrmError UInt64 :=
  let statement := ({} : SqliteQueryBuilder).buildCountQuery
    ⟨entity.tableName, entity.columns.map (·.toColumnDef)⟩
  (driver.count statement.1 statement.2 d).map Int64.toUInt64

def primitives : Repository D T Id where
  findById := findByIdSync entity driver
  save := saveSync entity driver
  deleteById := deleteByIdSync entity driver
  fetchCount := fetchCountSync entity driver

def overrides : BulkOperations D T Id where
  findAllByIds := findAllByIdsSync entity driver
  count := countSync entity driver
  existsById := existsByIdSync entity driver
  saveAll := (primitives entity driver).collectSaves
  deleteAllByIds := deleteAllByIdsSync entity driver

end SqliteEntity

end Kernway
