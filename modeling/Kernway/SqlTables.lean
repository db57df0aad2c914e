import Kernway.Results

namespace Kernway

/-- A statement on one table, each column beside the number of its placeholder. -/
inductive SqlStatement (C : Type)
  | insert (table : C) (columns : List (C × Nat))
  | update (table : C) (sets keys : List (C × Nat))
  | delete (table : C) (keys : List (C × Nat))

namespace SqlStatement

variable {C D : Type}

def table : SqlStatement C → C
  | insert table _ => table
  | update table _ _ => table
  | delete table _ => table

/-- The columns and their placeholders, in the order of the text. -/
def slots : SqlStatement C → List (C × Nat)
  | insert _ columns => columns
  | update _ sets keys => sets ++ keys
  | delete _ keys => keys

def sets : SqlStatement C → List (C × Nat)
  | insert _ _ => []
  | update _ sets _ => sets
  | delete _ _ => []

def params (s : SqlStatement C) : List Nat := s.slots.map (·.2)

/-- The values that a statement asks for: as many as its largest placeholder. -/
def arity (s : SqlStatement C) : Nat := s.params.foldr max 0

def map (f : C → D) : SqlStatement C → SqlStatement D
  | insert table columns => insert (f table) (columns.map (Prod.map f id))
  | update table sets keys =>
    update (f table) (sets.map (Prod.map f id)) (keys.map (Prod.map f id))
  | delete table keys => delete (f table) (keys.map (Prod.map f id))

theorem foldr_max_range' (start n : Nat) :
    (List.range' start n).foldr max 0 = if n = 0 then 0 else start + n - 1 := by
  induction n generalizing start with
  | zero => rfl
  | succ n ih =>
    rw [List.range'_succ, List.foldr_cons, ih (start + 1), if_neg (Nat.succ_ne_zero n)]
    split <;> omega

theorem arity_of_params {s : SqlStatement C} {n : Nat} (h : s.params = List.range' 1 n) :
    s.arity = n := by
  unfold arity
  rw [h, foldr_max_range']
  split <;> omega

theorem slots_map (f : C → D) (s : SqlStatement C) :
    (s.map f).slots = s.slots.map (Prod.map f id) := by
  cases s with
  | insert table columns => rfl
  | update table sets keys => exact List.map_append.symm
  | delete table keys => rfl

@[simp] theorem params_map (f : C → D) (s : SqlStatement C) : (s.map f).params = s.params := by
  unfold params
  rw [slots_map, List.map_map]
  exact List.map_congr_left fun p _ => rfl

theorem arity_map (f : C → D) (s : SqlStatement C) : (s.map f).arity = s.arity := by
  unfold arity
  rw [params_map]

/-- A statement reads only the names that stand in it. -/
theorem map_congr {f g : C → D} {s : SqlStatement C} (htable : f s.table = g s.table)
    (hslots : ∀ p ∈ s.slots, f p.1 = g p.1) : s.map f = s.map g := by
  have hmap : ∀ cols : List (C × Nat), (∀ p ∈ cols, p ∈ s.slots) →
      cols.map (Prod.map f id) = cols.map (Prod.map g id) := by
    intro cols hcols
    apply List.map_congr_left
    intro p hp
    exact Prod.ext (hslots p (hcols p hp)) rfl
  cases s with
  | insert table columns =>
    have hcolumns := hmap columns fun _ hp => hp
    exact congrArg₂ insert htable hcolumns
  | update table sets keys =>
    have hsets := hmap sets fun _ hp => List.mem_append_left keys hp
    have hkeys := hmap keys fun _ hp => List.mem_append_right sets hp
    have htable : f table = g table := htable
    rw [map, map, htable, hsets, hkeys]
  | delete table keys =>
    have hkeys := hmap keys fun _ hp => hp
    exact congrArg₂ delete htable hkeys

theorem params_zipIdx (cols : List C) (start : Nat) :
    (cols.zipIdx start).map (·.2) = List.range' start cols.length := List.zipIdx_map_snd start cols

theorem params_update (table : C) (sets keys : List C) :
    (update table (sets.zipIdx 1) (keys.zipIdx (sets.length + 1))).params =
      List.range' 1 (sets.length + keys.length) := by
  have happ : List.range' 1 sets.length ++ List.range' (1 + 1 * sets.length) keys.length =
      List.range' 1 (sets.length + keys.length) := List.range'_append
  unfold params slots
  rw [List.map_append, params_zipIdx, params_zipIdx, ← happ, Nat.one_mul, Nat.add_comm 1]

end SqlStatement

/-- What a database does with the rows of one table. -/
structure SqlTable (C V : Type) where
  name : C
  has : C → Bool
  /-- Whether `column = value` is true of what the column holds. -/
  same : C → V → V → Bool
  /-- What the column keeps of a value. -/
  store : C → V → V
  /-- A column that an insert leaves out: its default, or a generated value. -/
  fill : List (C → V) → C → V
  emptyRow : Bool
  /-- The constraints. -/
  accepts : List (C → V) → Bool

/-- The values of the placeholders, counted from one. -/
def bindValues {C V : Type} (vals : List V) (slots : List (C × Nat)) : Option (List (C × V)) :=
  slots.mapM fun slot => vals[slot.2 - 1]?.map fun v => (slot.1, v)

theorem bindValues_zipIdx {C V : Type} (cols : List C) (before vals after : List V)
    (hlength : vals.length = cols.length) :
    bindValues (before ++ vals ++ after) (cols.zipIdx (before.length + 1)) =
      some (cols.zip vals) := by
  unfold bindValues
  induction cols generalizing before vals with
  | nil => rfl
  | cons c cols ih =>
    cases vals with
    | nil => simp at hlength
    | cons v vals =>
      have hv : (before ++ v :: vals ++ after)[before.length]? = some v := by
        rw [List.append_assoc, List.getElem?_append_right (Nat.le_refl _), Nat.sub_self]
        rfl
      have hrest := ih (before ++ [v]) vals (by simpa using hlength)
      have hsame : before ++ [v] ++ vals ++ after = before ++ v :: vals ++ after := by simp
      rw [hsame, List.length_append, List.length_singleton] at hrest
      rw [List.zipIdx_cons, List.mapM_cons, hrest, Nat.add_sub_cancel, hv]
      rfl

namespace SqlTable

variable {C V : Type} [DecidableEq C] (t : SqlTable C V)

def newRow (rows : List (C → V)) (values : List (C × V)) (c : C) : V :=
  match values.lookup c with
  | some v => t.store c v
  | none => t.fill rows c

/-- The last assignment to a column is the one that counts. -/
def write (values : List (C × V)) (row : C → V) (c : C) : V :=
  match values.reverse.lookup c with
  | some v => t.store c v
  | none => row c

def isAt (key : List (C × V)) (row : C → V) : Bool := key.all fun p => t.same p.1 (row p.1) p.2

def effect (s : SqlStatement C) (vals : List V) (rows : List (C → V)) :
    Option (List (C → V)) :=
  match s with
  | .insert _ columns =>
    -- `INSERT INTO t () VALUES ()` is not everywhere a statement
    if columns.isEmpty && !t.emptyRow then none
    else (bindValues vals columns).map fun values => rows ++ [t.newRow rows values]
  | .update _ sets keys =>
    if sets.isEmpty || keys.isEmpty then none
    else do
      let values ← bindValues vals sets
      let key ← bindValues vals keys
      return rows.map fun row => if t.isAt key row then t.write values row else row
  | .delete _ keys =>
    if keys.isEmpty then none
    else (bindValues vals keys).map fun key => rows.filter fun row => !t.isAt key row

/-- The rows after a statement, none where it fails: on a name that the table does not have, on
more or fewer values than placeholders, or on a constraint. -/
def exec (s : SqlStatement C) (vals : List V) (rows : List (C → V)) : Option (List (C → V)) :=
  if s.table = t.name ∧ s.slots.all (fun slot => t.has slot.1) ∧ s.arity = vals.length then
    (t.effect s vals rows).filter t.accepts
  else none

variable {t}

theorem exec_eq_none_of_arity {s : SqlStatement C} {vals : List V} (rows : List (C → V))
    (h : s.arity ≠ vals.length) : t.exec s vals rows = none := if_neg fun hs => h hs.2.2

theorem effect_of_exec {s : SqlStatement C} {vals : List V} {rows rows' : List (C → V)}
    (h : t.exec s vals rows = some rows') : t.effect s vals rows = some rows' := by
  unfold exec at h
  split at h
  next => exact (Option.filter_eq_some_iff.mp h).1
  next => simp at h

/-- A deletion by a numbered key leaves the rows that differ from the key somewhere. -/
theorem exec_delete {table : C} {keys : List C} {key : List V} {rows rows' : List (C → V)}
    (hlength : key.length = keys.length)
    (h : t.exec (.delete table (keys.zipIdx 1)) key rows = some rows') :
    rows' = rows.filter fun row => !t.isAt (keys.zip key) row := by
  have hbind := bindValues_zipIdx keys [] key [] hlength
  rw [List.nil_append, List.append_nil, List.length_nil, Nat.zero_add] at hbind
  have heffect := effect_of_exec h
  rw [effect] at heffect
  split at heffect
  next => simp at heffect
  next =>
    rw [hbind] at heffect
    exact (Option.some.inj heffect).symm

/-- An update by a numbered key writes the rows at the key and leaves the others. -/
theorem exec_update {table : C} {sets keys : List C} {vals key : List V}
    {rows rows' : List (C → V)} (hvals : vals.length = sets.length)
    (hkey : key.length = keys.length)
    (h : t.exec (.update table (sets.zipIdx 1) (keys.zipIdx (sets.length + 1))) (vals ++ key)
      rows = some rows') :
    rows' = rows.map fun row =>
      if t.isAt (keys.zip key) row then t.write (sets.zip vals) row else row := by
  have hsets : bindValues (vals ++ key) (sets.zipIdx 1) = some (sets.zip vals) :=
    bindValues_zipIdx sets [] vals key hvals
  have hkeys := bindValues_zipIdx keys vals key [] hkey
  rw [List.append_nil, hvals] at hkeys
  have heffect := effect_of_exec h
  rw [effect] at heffect
  split at heffect
  next => simp at heffect
  next =>
    rw [hsets, hkeys] at heffect
    exact (Option.some.inj heffect).symm

end SqlTable

end Kernway
