import Kernway.Kleene
import Kernway.OrmSpec

namespace Kernway

inductive ColumnType
  | integer
  | bigInt
  | text
  | boolean
  | float
  | timestamp
  | json
  | unknown
  deriving DecidableEq

structure ColumnDef where
  name : Text
  field : Text
  colType : ColumnType

inductive SqlValue
  | null
  | integer (n : Int64)
  | real (x : F64)
  | text (s : Text)

/-- `column_for_field`: a column goes by its Rust field or by its own name. -/
def columnForField (columns : List ColumnDef) (field : Text) : Option ColumnDef :=
  columns.find? fun c => c.field == field || c.name == field

def filterValueForField (columns : List ColumnDef) (field value : Text) : SqlValue :=
  match columnForField columns field with
  | none => .text value
  | some col =>
    match col.colType with
    | .boolean =>
      if value = "true".toList ∨ value = "1".toList then .integer 1
      else if value = "false".toList ∨ value = "0".toList then .integer 0
      else .text value
    | .integer | .bigInt =>
      match parseI64 value, parseUsize value with
      | some n, _ => .integer n
      | none, some n => .integer (.ofNat n)
      | none, none => .text value
    | .float =>
      match parseF64 value with
      | some x => .real x
      | none => .text value
    | _ => .text value

/-- The boolean expressions of the `WHERE` clauses, over columns and numbered placeholders. -/
inductive SqlExpr
  | compare (op : CompareOp) (col : Text) (k : Nat)
  | like (col : Text) (k : Nat)
  | isIn (col : Text) (ks : List Nat)
  | between (col : Text) (a b : Nat)
  | isNull (col : Text)
  | isNotNull (col : Text)
  | and (a b : SqlExpr)
  | or (a b : SqlExpr)
  | not (a : SqlExpr)

def CompareOp.symbol : CompareOp → Text
  | eq => "=".toList
  | ne => "!=".toList
  | gt => ">".toList
  | lt => "<".toList
  | gte => ">=".toList
  | lte => "<=".toList

def numbered (k : Nat) : Text := '?' :: Nat.toDigits 10 k

/-- An expression as the source writes it into the statement. -/
def SqlExpr.render : SqlExpr → Text
  | compare op col k => col ++ " ".toList ++ op.symbol ++ " ".toList ++ numbered k
  | like col k => col ++ " LIKE ".toList ++ numbered k
  | isIn col ks => col ++ " IN (".toList ++ ", ".toList.intercalate (ks.map numbered) ++ ")".toList
  | between col a b => col ++ " BETWEEN ".toList ++ numbered a ++ " AND ".toList ++ numbered b
  | isNull col => col ++ " IS NULL".toList
  | isNotNull col => col ++ " IS NOT NULL".toList
  | and a b => "(".toList ++ a.render ++ " AND ".toList ++ b.render ++ ")".toList
  | or a b => "(".toList ++ a.render ++ " OR ".toList ++ b.render ++ ")".toList
  | not a => "NOT (".toList ++ a.render ++ ")".toList

variable (columns : List ColumnDef)

/-- The column a field is written as. -/
def columnName (field : Text) : Text :=
  match columnForField columns field with
  | some c => c.name
  | none => field

/-- The values of an `IN` list pushed one by one, and their placeholders. -/
def pushEach (params : List SqlValue) : List SqlValue → List Nat × List SqlValue
  | [] => ([], params)
  | v :: vs =>
    let (ks, pushed) := pushEach (params ++ [v]) vs
    ((params.length + 1) :: ks, pushed)

/-- `spec_to_sql`: the expression, and the parameters with its own pushed. -/
def specToSql : Spec → List SqlValue → SqlExpr × List SqlValue
  | .compare op f v, params =>
    let params := params ++ [filterValueForField columns f v]
    (.compare op (columnName columns f) params.length, params)
  | .like f v, params =>
    let params := params ++ [.text v]
    (.like (columnName columns f) params.length, params)
  | .in_ f vs, params =>
    let (ks, params) := pushEach params (vs.map (filterValueForField columns f))
    (.isIn (columnName columns f) ks, params)
  | .between f lo hi, params =>
    let params := params ++ [filterValueForField columns f lo]
    let a := params.length
    let params := params ++ [filterValueForField columns f hi]
    let b := params.length
    (.between (columnName columns f) a b, params)
  | .isNull f, params => (.isNull (columnName columns f), params)
  | .isNotNull f, params => (.isNotNull (columnName columns f), params)
  | .and a b, params =>
    let (a, params) := specToSql a params
    let (b, params) := specToSql b params
    (.and a b, params)
  | .or a b, params =>
    let (a, params) := specToSql a params
    let (b, params) := specToSql b params
    (.or a b, params)
  | .not a, params =>
    let (a, params) := specToSql a params
    (.not a, params)

def validateSpec : Spec → Bool
  | .compare _ f _ | .like f _ | .in_ f _ | .between f _ _ | .isNull f | .isNotNull f =>
    (columnForField columns f).isSome
  | .and a b | .or a b => validateSpec a && validateSpec b
  | .not a => validateSpec a

/-- What is documented of the libraries under the repository: the number SQLite makes of a text
under numeric affinity, the text it makes of a real, and the field that `serde_json` reads from the
text of a JSON column. -/
structure Libraries where
  numeric : Text → Option (Int64 ⊕ F64)
  realText : F64 → Text
  jsonField : Text → Option Text

inductive Affinity
  | integer
  | real
  | text

/-- `col_type_ddl`. -/
def ColumnType.affinity : ColumnType → Affinity
  | bigInt | integer | boolean => .integer
  | float => .real
  | _ => .text

/-- `LIKE` without `ESCAPE`: the whole text, the case of ASCII letters aside. -/
def likeMatch : Text → Text → Bool
  | [], text => text.isEmpty
  | c :: pattern, text =>
    if c = '%' then text.tails.any (likeMatch pattern)
    else match text with
      | [] => false
      | d :: text => (c = '_' || c.toLower = d.toLower) && likeMatch pattern text

variable (lib : Libraries)

/-- A value as text, which is what `LIKE` and text affinity look at. -/
def SqlValue.asText : SqlValue → Option Text
  | null => none
  | integer n => some (decimalI64 n)
  | real x => some (lib.realText x)
  | text s => some s

/-- A column's affinity, applied to the value it is compared with. -/
def Affinity.apply : Affinity → SqlValue → SqlValue
  | .text, v =>
    match v.asText lib with
    | some s => .text s
    | none => .null
  | _, .text s =>
    match lib.numeric s with
    | some (.inl n) => .integer n
    | some (.inr x) => .real x
    | none => .text s
  | _, v => v

/-- The exact number that a value is. -/
def SqlValue.number : SqlValue → F64
  | integer n => .finite n.toInt
  | real x => x
  | _ => .nan

/-- SQLite's order of two values: numbers before texts, nothing beside `NULL`. -/
def sqlOrder : SqlValue → SqlValue → Option Ordering
  | .null, _ => none
  | _, .null => none
  | .text s, .text t => some (compareText s t)
  | .text _, _ => some .gt
  | _, .text _ => some .lt
  | x, y => x.number.partialCmp y.number

/-- A parameter as `sqlite3_bind` takes it. -/
def SqlValue.bind : SqlValue → SqlValue
  | real .nan => null
  | v => v

def paramAt (params : List SqlValue) (k : Nat) : SqlValue :=
  match params[k - 1]? with
  | some v => v.bind
  | none => .null

def affinityOf (col : Text) : Affinity :=
  match columns.find? fun c => c.name == col with
  | some c => c.colType.affinity
  | none => .text

variable (cell : Text → SqlValue)

/-- The cell of a column in order with a bound value. -/
def cellOrder (col : Text) (value : SqlValue) : Option Ordering :=
  sqlOrder (cell col) ((affinityOf columns col).apply lib value)

def cellLike (col : Text) (pattern : SqlValue) : Truth :=
  match (cell col).asText lib, pattern.asText lib with
  | some s, some p => some (likeMatch p s)
  | _, _ => none

def SqlValue.isNull : SqlValue → Bool
  | null => true
  | _ => false

/-- SQLite's value of an expression on a row. -/
def SqlExpr.eval (params : List SqlValue) : SqlExpr → Truth
  | compare op col k => (cellOrder columns lib cell col (paramAt params k)).map op.holds
  | like col k => cellLike lib cell col (paramAt params k)
  | isIn col ks => Truth.any (ks.map fun k =>
      (cellOrder columns lib cell col (paramAt params k)).map CompareOp.eq.holds)
  | between col a b =>
    Truth.and ((cellOrder columns lib cell col (paramAt params a)).map CompareOp.gte.holds)
      ((cellOrder columns lib cell col (paramAt params b)).map CompareOp.lte.holds)
  | isNull col => some (cell col).isNull
  | isNotNull col => some !(cell col).isNull
  | and a b => (a.eval params).and (b.eval params)
  | or a b => (a.eval params).or (b.eval params)
  | not a => (a.eval params).not

/-- What a field reads as where its column holds `cell`: the JSON value that the row is read back
to, as text. A real is printed so that it parses back. -/
def Shows (c : ColumnDef) : SqlValue → Option Text → Prop
  | .null, shown => shown = none
  | .integer n, shown =>
    shown = some (if c.colType = .boolean then
      if n = 0 then "false".toList else "true".toList else decimalI64 n)
  | .real x, shown =>
    match x with
    | .finite _ => ∃ s, shown = some s ∧ parseF64 s = some x
    | _ => shown = none
  | .text s, shown => shown = if c.colType = .json then lib.jsonField s else some s

/-- A row of the entity's table, with the fields of the entity it is read back to. -/
structure Row where
  cell : Text → SqlValue
  get : Text → Option Text
  shows : ∀ c ∈ columns, Shows lib c (cell c.name) (get c.field)

/-- The rows of a query with the given predicate; a field that is no column is an error. -/
def fetchSpec (spec : Spec) (rows : List (Row columns lib)) : Option (List (Row columns lib)) :=
  if validateSpec columns spec then
    let (clause, params) := specToSql columns spec []
    some (rows.filter fun row => clause.eval columns lib row.cell params == some true)
  else none

end Kernway
