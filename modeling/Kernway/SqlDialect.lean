import Kernway.SqlTables
import Kernway.SqliteRepository

namespace Kernway

/-- What a database's dialect supplies to the shared statements. -/
structure SqlDialect where
  /-- The placeholder of the nth value, counted from one. -/
  placeholder : Nat → Text
  quoteIdentifier : Text → Text := fun name => "\"".toList ++ name ++ "\"".toList

namespace SqlDialect

def sqlite : SqlDialect where
  placeholder _ := "?".toList

def mySql : SqlDialect where
  placeholder _ := "?".toList
  quoteIdentifier name := "`".toList ++ name ++ "`".toList

def postgres : SqlDialect where
  placeholder i := "$".toList ++ Nat.toDigits 10 i

/-- How the SQLite repository writes its own statements. -/
def bare : SqlDialect where
  placeholder i := '?' :: Nat.toDigits 10 i
  quoteIdentifier name := name

variable (d : SqlDialect)

def insertSql (table : Text) (cols : List KeyedColumn) : Text :=
  let writable := cols.filter fun c => !c.auto
  let names := writable.map fun c => d.quoteIdentifier c.name
  let placeholders := (List.range' 1 writable.length).map d.placeholder
  "INSERT INTO ".toList ++ d.quoteIdentifier table ++ " (".toList ++
    ", ".toList.intercalate names ++ ") VALUES (".toList ++
    ", ".toList.intercalate placeholders ++ ")".toList

def updateSql (table : Text) (cols : List KeyedColumn) : Text :=
  let pk := ((cols.find? (·.primaryKey)).map (·.name)).getD "id".toList
  let updatable := cols.filter fun c => !c.primaryKey && !c.auto
  let assignments := updatable.zipIdx.map fun (c, i) =>
    d.quoteIdentifier c.name ++ " = ".toList ++ d.placeholder (i + 1)
  "UPDATE ".toList ++ d.quoteIdentifier table ++ " SET ".toList ++
    ", ".toList.intercalate assignments ++ " WHERE ".toList ++ d.quoteIdentifier pk ++
    " = ".toList ++ d.placeholder (updatable.length + 1)

def deleteSql (table pkCol : Text) : Text :=
  "DELETE FROM ".toList ++ d.quoteIdentifier table ++ " WHERE ".toList ++
    d.quoteIdentifier pkCol ++ " = ".toList ++ d.placeholder 1

def assignment (slot : Text × Nat) : Text :=
  d.quoteIdentifier slot.1 ++ " = ".toList ++ d.placeholder slot.2

/-- The text of a statement. -/
def render : SqlStatement Text → Text
  | .insert table columns =>
    "INSERT INTO ".toList ++ d.quoteIdentifier table ++ " (".toList ++
      ", ".toList.intercalate (columns.map fun slot => d.quoteIdentifier slot.1) ++
      ") VALUES (".toList ++
      ", ".toList.intercalate (columns.map fun slot => d.placeholder slot.2) ++ ")".toList
  | .update table sets keys =>
    "UPDATE ".toList ++ d.quoteIdentifier table ++ " SET ".toList ++
      ", ".toList.intercalate (sets.map d.assignment) ++ " WHERE ".toList ++
      " AND ".toList.intercalate (keys.map d.assignment)
  | .delete table keys =>
    "DELETE FROM ".toList ++ d.quoteIdentifier table ++ " WHERE ".toList ++
      " AND ".toList.intercalate (keys.map d.assignment)

def insertStatement (table : Text) (cols : List KeyedColumn) : SqlStatement Text :=
  .insert table (((cols.filter fun c => !c.auto).map (·.name)).zipIdx 1)

def updateStatement (table : Text) (cols : List KeyedColumn) : SqlStatement Text :=
  let pk := ((cols.find? (·.primaryKey)).map (·.name)).getD "id".toList
  let updatable := cols.filter fun c => !c.primaryKey && !c.auto
  .update table ((updatable.map (·.name)).zipIdx 1) [(pk, updatable.length + 1)]

def deleteStatement (table pkCol : Text) : SqlStatement Text := .delete table [(pkCol, 1)]

theorem render_update (table : Text) (sets keys : List (Text × Nat)) :
    d.render (.update table sets keys) =
      "UPDATE ".toList ++ d.quoteIdentifier table ++ " SET ".toList ++
        ", ".toList.intercalate (sets.map d.assignment) ++ " WHERE ".toList ++
        " AND ".toList.intercalate (keys.map d.assignment) := rfl

theorem render_delete (table : Text) (keys : List (Text × Nat)) :
    d.render (.delete table keys) =
      "DELETE FROM ".toList ++ d.quoteIdentifier table ++ " WHERE ".toList ++
        " AND ".toList.intercalate (keys.map d.assignment) := rfl

theorem render_insert (table : Text) (names : List Text) :
    d.render (.insert table (names.zipIdx 1)) =
      "INSERT INTO ".toList ++ d.quoteIdentifier table ++ " (".toList ++
        ", ".toList.intercalate (names.map d.quoteIdentifier) ++ ") VALUES (".toList ++
        ", ".toList.intercalate ((List.range' 1 names.length).map d.placeholder) ++
        ")".toList := by
  have hnames : (names.zipIdx 1).map (fun slot => d.quoteIdentifier slot.1) =
      names.map d.quoteIdentifier := by
    conv_rhs => rw [← List.zipIdx_map_fst 1 names, List.map_map]
    rfl
  have hnumbers : (names.zipIdx 1).map (fun slot => d.placeholder slot.2) =
      (List.range' 1 names.length).map d.placeholder := by
    rw [← List.zipIdx_map_snd 1 names, List.map_map]
    rfl
  rw [← hnames, ← hnumbers]
  rfl

theorem map_assignment (names : List Text) (start : Nat) :
    (names.zipIdx start).map d.assignment = names.zipIdx.map fun p =>
      d.quoteIdentifier p.1 ++ " = ".toList ++ d.placeholder (start + p.2) := by
  rw [List.zipIdx_eq_map_add, List.map_map]
  rfl

theorem map_assignment_name (cols : List KeyedColumn) (start : Nat) :
    ((cols.map (·.name)).zipIdx start).map d.assignment = cols.zipIdx.map fun p =>
      d.quoteIdentifier p.1.name ++ " = ".toList ++ d.placeholder (start + p.2) := by
  rw [map_assignment, ← List.map_zipIdx, List.map_map]
  rfl

theorem insertSql_eq (table : Text) (cols : List KeyedColumn) :
    d.insertSql table cols = d.render (insertStatement table cols) := by
  have hrender := d.render_insert table ((cols.filter fun c => !c.auto).map (·.name))
  rw [List.map_map, List.length_map] at hrender
  exact hrender.symm

theorem updateSql_eq (table : Text) (cols : List KeyedColumn) :
    d.updateSql table cols = d.render (updateStatement table cols) := by
  have hsets := d.map_assignment_name (cols.filter fun c => !c.primaryKey && !c.auto) 1
  have hcomm : ∀ i, d.placeholder (1 + i) = d.placeholder (i + 1) :=
    fun i => congrArg d.placeholder (Nat.add_comm 1 i)
  simp only [hcomm] at hsets
  unfold updateSql updateStatement
  rw [render_update, hsets, List.map_singleton, List.intercalate_singleton]
  simp only [assignment, List.append_assoc]

theorem deleteSql_eq (table pkCol : Text) :
    d.deleteSql table pkCol = d.render (deleteStatement table pkCol) := by
  unfold deleteSql deleteStatement
  rw [render_delete, List.map_singleton, List.intercalate_singleton]
  simp only [assignment, List.append_assoc]

end SqlDialect

end Kernway
