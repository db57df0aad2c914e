import Kernway.Float64

namespace Kernway

/-- The comparisons of `Spec`. -/
inductive CompareOp
  | eq
  | ne
  | gt
  | lt
  | gte
  | lte
  deriving DecidableEq

def CompareOp.holds : CompareOp → Ordering → Bool
  | eq, order => order == .eq
  | ne, order => order != .eq
  | gt, order => order == .gt
  | lt, order => order == .lt
  | gte, order => order == .gt || order == .eq
  | lte, order => order == .lt || order == .eq

/-- A query predicate; the six comparisons of a field with a value are one case. -/
inductive Spec
  | compare (op : CompareOp) (field value : Text)
  | like (field value : Text)
  | in_ (field : Text) (values : List Text)
  | between (field lo hi : Text)
  | isNull (field : Text)
  | isNotNull (field : Text)
  | and (a b : Spec)
  | or (a b : Spec)
  | not (a : Spec)

namespace Spec

def eq (field value : Text) : Spec := .compare .eq field value

def ne (field value : Text) : Spec := .compare .ne field value

def gt (field value : Text) : Spec := .compare .gt field value

def lt (field value : Text) : Spec := .compare .lt field value

def gte (field value : Text) : Spec := .compare .gte field value

def lte (field value : Text) : Spec := .compare .lte field value

end Spec

/-- `str::cmp`. The order of the characters is that of the UTF-8 bytes. -/
def compareText : Text → Text → Ordering
  | [], [] => .eq
  | [], _ :: _ => .lt
  | _ :: _, [] => .gt
  | a :: s, b :: t =>
    if a.toNat < b.toNat then .lt else if b.toNat < a.toNat then .gt else compareText s t

def cmp (field : Option Text) (query : Text) : Option Ordering :=
  match field with
  | none => none
  | some field =>
    match parseF64 field, parseF64 query with
    | some a, some b => a.partialCmp b
    | _, _ => some (compareText field query)

/-- `Spec::matches`, of a row whose fields `get` reads. -/
def Spec.matches (get : Text → Option Text) : Spec → Bool
  | .compare op f v => (cmp (get f) v).any op.holds
  | .like f v => (get f).any fun c => containsText c v
  | .in_ f vs => vs.any fun v => (cmp (get f) v).any CompareOp.eq.holds
  | .between f lo hi =>
    (cmp (get f) lo).any CompareOp.gte.holds && (cmp (get f) hi).any CompareOp.lte.holds
  | .isNull f =>
    match get f with
    | none => true
    | some c => c.isEmpty
  | .isNotNull f => (get f).any fun c => !c.isEmpty
  | .and a b => a.matches get && b.matches get
  | .or a b => a.matches get || b.matches get
  | .not a => !a.matches get

/-- The fields that a predicate reads. -/
def Spec.fields : Spec → List Text
  | .compare _ f _ | .like f _ | .in_ f _ | .between f _ _ | .isNull f | .isNotNull f => [f]
  | .and a b | .or a b => a.fields ++ b.fields
  | .not a => a.fields

/-- A call that refines a query builder. -/
inductive QueryCall
  | compare (op : CompareOp) (field value : Text)
  | like (field pattern : Text)
  | in_ (field : Text) (values : List Text)
  | between (field lo hi : Text)
  | isNull (field : Text)
  | isNotNull (field : Text)
  | spec (spec : Spec)
  | orderByAsc (field : Text)
  | orderByDesc (field : Text)
  | limit (n : UInt64)
  | offset (n : UInt64)
  | with_ (relation : Text)

inductive SortDir
  | asc
  | desc
  deriving DecidableEq

inductive OrmError
  | notFound
  | uniqueViolation (field : Text)
  | foreignKeyViolation
  | connection (message : Text)
  | query (message : Text)
  | transaction (message : Text)
  | typeConversion (message : Text)
  | migration (message : Text)
  | unsupported (message : Text)
  deriving DecidableEq

structure Page (T : Type) where
  items : List T
  total : UInt64
  page : UInt64
  size : UInt64
  totalPages : UInt64

/-- `Page::new`; `div_ceil` rounds up. -/
def Page.new {T : Type} (items : List T) (total page size : UInt64) : Page T :=
  { items, total, page, size
    totalPages := if size = 0 then 0 else
      if total % size = 0 then total / size else total / size + 1 }

end Kernway
