import Kernway.Fields
import Kernway.OrmSpec
import Kernway.Results

namespace Kernway

structure QueryConfig where
  filterable : List Text
  sortable : List Text
  defaultSize : Nat
  maxSize : Nat

inductive QueryError
  | unknownFilterField (name : Text)
  | unknownSortField (name : Text)
  | unknownOperator (op : Text)
  | malformedFilter (term : Text)

/-- What `parse` can end with beside a query. -/
inductive QueryFailure
  | refused (error : QueryError)
  | panicked

namespace QueryConfig

def filterField (config : QueryConfig) (name : Text) : Except QueryError Text :=
  match config.filterable.find? (· == name) with
  | some field => .ok field
  | none => .error (.unknownFilterField name)

def sortField (config : QueryConfig) (name : Text) : Except QueryError Text :=
  match config.sortable.find? (· == name) with
  | some field => .ok field
  | none => .error (.unknownSortField name)

end QueryConfig

structure QuerySpec where
  spec : Option Spec
  sort : List (Text × SortDir)
  page : Nat
  size : Nat

def buildSpec (field op value : Text) : Except QueryError Spec :=
  if op = "eq".toList then .ok (.eq field value)
  else if op = "ne".toList then .ok (.ne field value)
  else if op = "gt".toList then .ok (.gt field value)
  else if op = "lt".toList then .ok (.lt field value)
  else if op = "gte".toList then .ok (.gte field value)
  else if op = "lte".toList then .ok (.lte field value)
  else if op = "like".toList then .ok (.like field value)
  else if op = "in".toList then .ok (.in_ field (value.splitOn ','))
  else .error (.unknownOperator op)

/-- The field, the operator and the value of a compact term `field[:op]:value`. -/
def compactParts (term : Text) : Option (Text × Text × Text) :=
  match cutAt ':' term with
  | none => none
  | some (name, rest) =>
    match cutAt ':' rest with
    | none => some (name, "eq".toList, rest)
    | some (op, value) => some (name, op, value)

def parseCompactTerm (config : QueryConfig) (term : Text) : Except QueryError Spec :=
  match compactParts term with
  | none => .error (.malformedFilter term)
  | some (name, op, value) => do
    let field ← config.filterField name
    buildSpec field op value

/-- The first two pieces of a text cut at `][`. -/
def cutKey (body : Text) : Text × Option Text :=
  match cutText "][".toList body with
  | none => (body, none)
  | some (name, rest) =>
    match cutText "][".toList rest with
    | none => (name, some rest)
    | some (op, _) => (name, some op)

/-- The body of a JSON:API filter key, `field]` or `field][op]`, with its value. -/
def parseJsonapiFilter (config : QueryConfig) (inner value : Text) : Except QueryError Spec := do
  let (name, op) := cutKey (inner.rdropWhile (· = ']'))
  let field ← config.filterField name
  buildSpec field (op.getD "eq".toList) value

def parseSortToken (config : QueryConfig) (token : Text) : Except QueryError (Text × SortDir) :=
  match token with
  | '-' :: name => (config.sortField name).map fun field => (field, .desc)
  | name => (config.sortField name).map fun field => (field, .asc)

/-- The pieces between the commas, the empty ones aside. -/
def commaTerms (s : Text) : List Text := (s.splitOn ',').filter (· ≠ [])

/-- `u64::clamp`, `none` where it panics. -/
def clamp (n lo hi : Nat) : Option Nat := if lo ≤ hi then some (max lo (min n hi)) else none

def filterKey : Text := "filter[".toList

namespace QuerySpec

/-- `reduce` with `and`. -/
def conjoin : List Spec → Option Spec
  | [] => none
  | c :: cs => some (cs.foldl .and c)

def parseConditions (params : QueryParams) (config : QueryConfig) :
    Except QueryError (List Spec) := do
  let compact ← (((params.get "filter".toList).map commaTerms).getD []).mapM fun term =>
    parseCompactTerm config term
  let jsonapi ← (params.iter.filterMap fun param =>
    (filterKey.isPrefixOf? param.1).map fun inner => (inner, param.2)).mapM fun filter =>
      parseJsonapiFilter config filter.1 filter.2
  return compact ++ jsonapi

def parseSort (params : QueryParams) (config : QueryConfig) :
    Except QueryError (List (Text × SortDir)) :=
  (((params.get "sort".toList).map commaTerms).getD []).mapM (parseSortToken config)

def number (params : QueryParams) (jsonapi compact : Text) : Option Nat :=
  ((params.get jsonapi).or (params.get compact)).bind parseUsize

def parse (params : QueryParams) (config : QueryConfig) : Except QueryFailure QuerySpec := do
  let conditions ← (parseConditions params config).mapError .refused
  let sort ← (parseSort params config).mapError .refused
  let page := (number params "page[number]".toList "page".toList).getD 0
  let size := (number params "page[size]".toList "size".toList).getD config.defaultSize
  match clamp size 1 config.maxSize with
  | none => .error .panicked
  | some size => return { spec := conjoin conditions, sort, page, size }

/-- The calls that `apply` makes on a query builder. -/
def apply (q : QuerySpec) : List QueryCall :=
  (q.spec.map QueryCall.spec).toList ++ q.sort.map fun (field, dir) =>
    match dir with
    | .asc => .orderByAsc field
    | .desc => .orderByDesc field

end QuerySpec

def Spec.conjuncts : Spec → List Spec
  | .and a b => a.conjuncts ++ b.conjuncts
  | spec => [spec]

/-- A filter term in one of the two syntaxes. -/
inductive FilterTerm
  | compact (term : Text)
  | jsonapi (inner value : Text)

def FilterTerm.parse (config : QueryConfig) : FilterTerm → Except QueryError Spec
  | .compact term => parseCompactTerm config term
  | .jsonapi inner value => parseJsonapiFilter config inner value

/-- The values of all the parameters of a name. -/
def valuesOf (name : Text) (pairs : List (Text × Text)) : List Text :=
  (pairs.filter fun param => param.1 = name).map Prod.snd

/-- Every filter term that is present in the parameters. -/
def filterTerms (pairs : List (Text × Text)) : List FilterTerm :=
  ((valuesOf "filter".toList pairs).flatMap commaTerms).map .compact ++
    pairs.filterMap fun param =>
      (filterKey.isPrefixOf? param.1).map fun inner => .jsonapi inner param.2

def sortTokens (pairs : List (Text × Text)) : List Text :=
  (valuesOf "sort".toList pairs).flatMap commaTerms

/-- A query in the bounds of the configuration. -/
structure QuerySpec.Permitted (config : QueryConfig) (q : QuerySpec) : Prop where
  filterable : ∀ spec ∈ q.spec, ∀ f ∈ spec.fields, f ∈ config.filterable
  sortable : ∀ key ∈ q.sort, key.1 ∈ config.sortable
  size : 1 ≤ q.size ∧ q.size ≤ config.maxSize

/-- Every filter term gives one conjunct of the query, and every sort token, in order, a key. -/
structure QuerySpec.Complete (config : QueryConfig) (pairs : List (Text × Text)) (q : QuerySpec) :
    Prop where
  filter : ∃ specs, (filterTerms pairs).mapM (FilterTerm.parse config) = .ok specs ∧
    ((q.spec.map Spec.conjuncts).getD []).Perm specs
  sort : (sortTokens pairs).mapM (parseSortToken config) = .ok q.sort

/-- A `filter` or `sort` parameter that is not the last of its name holds no term. -/
def LastOnly (pairs : List (Text × Text)) : Prop :=
  (∀ value ∈ (valuesOf "filter".toList pairs).dropLast, commaTerms value = []) ∧
    ∀ value ∈ (valuesOf "sort".toList pairs).dropLast, commaTerms value = []

theorem buildSpec_leaf {field op value : Text} {spec : Spec}
    (h : buildSpec field op value = .ok spec) :
    spec.fields = [field] ∧ spec.conjuncts = [spec] := by
  unfold buildSpec at h
  repeat' split at h
  all_goals first
    | cases h
      exact ⟨rfl, rfl⟩
    | cases h

theorem filterField_mem {config : QueryConfig} {name field : Text}
    (h : config.filterField name = .ok field) : field ∈ config.filterable := by
  unfold QueryConfig.filterField at h
  split at h
  next found hfound =>
    cases h
    exact List.mem_of_find?_eq_some hfound
  next => cases h

theorem sortField_mem {config : QueryConfig} {name field : Text}
    (h : config.sortField name = .ok field) : field ∈ config.sortable := by
  unfold QueryConfig.sortField at h
  split at h
  next found hfound =>
    cases h
    exact List.mem_of_find?_eq_some hfound
  next => cases h

/-- A term of either syntax becomes one leaf, on a field of the whitelist. -/
theorem FilterTerm.parse_leaf {config : QueryConfig} {term : FilterTerm} {spec : Spec}
    (h : term.parse config = .ok spec) :
    (∀ f ∈ spec.fields, f ∈ config.filterable) ∧ spec.conjuncts = [spec] := by
  have hbuilt : ∃ name op value field, config.filterField name = .ok field ∧
      buildSpec field op value = .ok spec := by
    cases term with
    | compact term =>
      rw [FilterTerm.parse, parseCompactTerm] at h
      split at h
      next => cases h
      next name op value _ =>
        obtain ⟨field, hfield, hbuild⟩ := bind_eq_ok_iff.mp h
        exact ⟨name, op, value, field, hfield, hbuild⟩
    | jsonapi inner value =>
      obtain ⟨field, hfield, hbuild⟩ := bind_eq_ok_iff.mp h
      exact ⟨_, _, value, field, hfield, hbuild⟩
  obtain ⟨name, op, value, field, hfield, hbuild⟩ := hbuilt
  obtain ⟨hfields, hleaf⟩ := buildSpec_leaf hbuild
  refine ⟨fun f hf => ?_, hleaf⟩
  rw [hfields, List.mem_singleton] at hf
  rw [hf]
  exact filterField_mem hfield

theorem parseSortToken_mem {config : QueryConfig} {token : Text} {key : Text × SortDir}
    (h : parseSortToken config token = .ok key) : key.1 ∈ config.sortable := by
  unfold parseSortToken at h
  split at h
  all_goals
    obtain ⟨field, hfield, rfl⟩ := map_eq_ok_iff.mp h
    exact sortField_mem hfield

namespace QuerySpec

theorem conjuncts_conjoin {cs : List Spec} (h : ∀ c ∈ cs, c.conjuncts = [c]) :
    ((conjoin cs).map Spec.conjuncts).getD [] = cs := by
  have hfold : ∀ (ds : List Spec) (a : Spec), (∀ d ∈ ds, d.conjuncts = [d]) →
      (ds.foldl .and a).conjuncts = a.conjuncts ++ ds := by
    intro ds
    induction ds with
    | nil => intro a _; simp
    | cons d ds ih =>
      intro a hd
      rw [List.foldl_cons, ih _ fun e he => hd e (List.mem_cons_of_mem d he), Spec.conjuncts,
        hd d (List.mem_cons_self ..), List.append_assoc, List.singleton_append]
  cases cs with
  | nil => rfl
  | cons c cs =>
    rw [conjoin, Option.map_some, Option.getD_some,
      hfold cs c fun d hd => h d (List.mem_cons_of_mem c hd), h c (List.mem_cons_self ..),
      List.singleton_append]

theorem fields_conjoin {cs : List Spec} {spec : Spec} {p : Text → Prop}
    (h : conjoin cs = some spec) (hp : ∀ c ∈ cs, ∀ f ∈ c.fields, p f) :
    ∀ f ∈ spec.fields, p f := by
  cases cs with
  | nil => simp [conjoin] at h
  | cons c cs =>
    cases Option.some.inj h
    have hc := hp c (List.mem_cons_self ..)
    have hcs := fun d hd => hp d (List.mem_cons_of_mem c hd)
    clear hp h
    induction cs generalizing c with
    | nil => exact hc
    | cons d cs ih =>
      rw [List.foldl_cons]
      refine ih (.and c d) ?_ fun e he => hcs e (List.mem_cons_of_mem d he)
      intro f hf
      rcases List.mem_append.mp hf with hf | hf
      · exact hc f hf
      · exact hcs d (List.mem_cons_self ..) f hf

theorem clamp_eq_some {n lo hi m : Nat} (h : clamp n lo hi = some m) : lo ≤ m ∧ m ≤ hi := by
  unfold clamp at h
  split at h
  next hle =>
    cases h
    omega
  next => cases h

variable {params : QueryParams} {config : QueryConfig} {pairs : List (Text × Text)}

theorem get_eq_getLast (hparams : params.Holds pairs) (name : Text) :
    params.get name = (valuesOf name pairs).getLast? := by
  rw [Fields.get_of_holds hparams, valuesOf, List.getLast?_map, List.getLast?_eq_head?_reverse,
    ← List.filter_reverse, List.head?_filter]
  simp only [storedText, Bool.false_eq_true, ↓reduceIte, beq_eq_decide]

/-- The filter terms that `parse` reads. -/
def readTerms (pairs : List (Text × Text)) : List FilterTerm :=
  (((valuesOf "filter".toList pairs).getLast?.map commaTerms).getD []).map .compact ++
    pairs.filterMap fun param =>
      (filterKey.isPrefixOf? param.1).map fun inner => .jsonapi inner param.2

theorem parseConditions_eq (hparams : params.Holds pairs) :
    parseConditions params config = (readTerms pairs).mapM (FilterTerm.parse config) := by
  have hjson : (pairs.filterMap fun param => (filterKey.isPrefixOf? param.1).map fun inner =>
      FilterTerm.jsonapi inner param.2) =
      (pairs.filterMap fun param => (filterKey.isPrefixOf? param.1).map fun inner =>
        (inner, param.2)).map fun filter => .jsonapi filter.1 filter.2 := by
    rw [List.map_filterMap]
    simp only [Option.map_map]
    rfl
  rw [parseConditions, get_eq_getLast hparams, Fields.iter_of_holds hparams, readTerms,
    List.mapM_append, hjson, List.mapM_map, List.mapM_map]
  rfl

theorem flatMap_eq_dropLast {α β : Type} (f : α → List β) (xs : List α) :
    xs.flatMap f = xs.dropLast.flatMap f ++ (xs.getLast?.map f).getD [] := by
  cases xs using List.reverseRecOn with
  | nil => rfl
  | append_singleton xs x => simp

/-- A call of `parse` that succeeds, in its parts. -/
theorem parse_eq_ok {q : QuerySpec} (h : parse params config = .ok q) :
    ∃ conditions n, parseConditions params config = .ok conditions ∧
      parseSort params config = .ok q.sort ∧ q.spec = conjoin conditions ∧
      clamp n 1 config.maxSize = some q.size := by
  obtain ⟨conditions, hconditions, h⟩ := bind_eq_ok_iff.mp h
  obtain ⟨sort, hsort, h⟩ := bind_eq_ok_iff.mp h
  dsimp only at h
  split at h
  next => cases h
  next size hsize =>
    cases h
    exact ⟨conditions, _, mapError_ok hconditions, mapError_ok hsort, rfl, hsize⟩

theorem parse_ne_panicked (hmax : 1 ≤ config.maxSize) :
    parse params config ≠ .error .panicked := by
  intro h
  unfold parse at h
  cases hconditions : parseConditions params config with
  | error e => simp [hconditions, Except.mapError, bind, Except.bind] at h
  | ok conditions =>
    cases hsort : parseSort params config with
    | error e => simp [hconditions, hsort, Except.mapError, bind, Except.bind] at h
    | ok sort =>
      simp [hconditions, hsort, Except.mapError, bind, Except.bind, clamp, hmax, pure,
        Except.pure] at h

theorem parse_permitted (hparams : params.Holds pairs) {q : QuerySpec}
    (h : parse params config = .ok q) : q.Permitted config := by
  obtain ⟨conditions, n, hconditions, hsort, hspec, hsize⟩ := parse_eq_ok h
  refine ⟨fun spec hq => ?_, fun key hkey => ?_, clamp_eq_some hsize⟩
  · rw [hspec] at hq
    rw [parseConditions_eq hparams] at hconditions
    refine fields_conjoin hq fun c hc => ?_
    obtain ⟨term, -, hterm⟩ := exists_of_mem_mapM hconditions hc
    exact (FilterTerm.parse_leaf hterm).1
  · obtain ⟨token, -, htoken⟩ := exists_of_mem_mapM hsort hkey
    exact parseSortToken_mem htoken

/-- The terms of the values that `parse` does not read. -/
def droppedTerms (name : Text) (pairs : List (Text × Text)) : List Text :=
  (valuesOf name pairs).dropLast.flatMap commaTerms

theorem filterTerms_eq (pairs : List (Text × Text)) :
    filterTerms pairs = (droppedTerms "filter".toList pairs).map .compact ++ readTerms pairs := by
  rw [filterTerms, flatMap_eq_dropLast, List.map_append, List.append_assoc, droppedTerms, readTerms]

theorem sortTokens_eq (hparams : params.Holds pairs) :
    sortTokens pairs = droppedTerms "sort".toList pairs ++
      ((params.get "sort".toList).map commaTerms).getD [] := by
  rw [sortTokens, flatMap_eq_dropLast, droppedTerms, get_eq_getLast hparams]

theorem lastOnly_iff : LastOnly pairs ↔
    droppedTerms "filter".toList pairs = [] ∧ droppedTerms "sort".toList pairs = [] := by
  simp only [LastOnly, droppedTerms, List.flatMap_eq_nil_iff]

/-- The terms of a dropped value are missing, as their count shows. -/
theorem complete_iff (hparams : params.Holds pairs) {q : QuerySpec}
    (h : parse params config = .ok q) : q.Complete config pairs ↔ LastOnly pairs := by
  obtain ⟨conditions, n, hconditions, hsort, hspec, -⟩ := parse_eq_ok h
  rw [parseConditions_eq hparams] at hconditions
  have hconjuncts : (q.spec.map Spec.conjuncts).getD [] = conditions := by
    rw [hspec]
    refine conjuncts_conjoin fun c hc => ?_
    obtain ⟨term, -, hterm⟩ := exists_of_mem_mapM hconditions hc
    exact (FilterTerm.parse_leaf hterm).2
  rw [lastOnly_iff]
  constructor
  · rintro ⟨⟨specs, hspecs, hperm⟩, hkeys⟩
    have hall := length_of_mapM hspecs
    have hread := length_of_mapM hconditions
    have hsame := hperm.length_eq
    rw [filterTerms_eq, List.length_append, List.length_map] at hall
    rw [hconjuncts] at hsame
    have hallSorts := length_of_mapM hkeys
    have hreadSorts := length_of_mapM hsort
    rw [sortTokens_eq hparams, List.length_append] at hallSorts
    exact ⟨List.eq_nil_of_length_eq_zero (by omega), List.eq_nil_of_length_eq_zero (by omega)⟩
  · rintro ⟨hfilter, hsorts⟩
    refine ⟨⟨conditions, ?_, ?_⟩, ?_⟩
    · rw [filterTerms_eq, hfilter]
      exact hconditions
    · rw [hconjuncts]
    · rw [sortTokens_eq hparams, hsorts]
      exact hsort

/-- The parameters that pushing the pairs one by one makes. -/
def pushAll (pairs : List (Text × Text)) : Option QueryParams :=
  pairs.foldlM (fun params param => params.push param.1 param.2) {}

theorem pushAll_holds (h : pushAll pairs = some params) : params.Holds pairs := by
  have hpush : ∀ (rest done : List (Text × Text)) (start : QueryParams), start.Holds done →
      rest.foldlM (fun params param => params.push param.1 param.2) start = some params →
      params.Holds (done ++ rest) := by
    intro rest
    induction rest with
    | nil =>
      intro done start hstart h
      cases Option.some.inj h
      rwa [List.append_nil]
    | cons param rest ih =>
      intro done start hstart h
      rw [List.foldlM_cons] at h
      obtain ⟨next, hnext, h⟩ := Option.bind_eq_some_iff.mp h
      simpa [storedText] using ih _ next (Fields.push_holds hstart hnext) h
  exact hpush pairs [] {} Fields.holds_nil h

theorem exists_parse (pairs : List (Text × Text)) (config : QueryConfig)
    (h : ((pushAll pairs).map fun params => (parse params config).toBool) = some true) :
    ∃ params q, params.Holds pairs ∧ parse params config = .ok q := by
  obtain ⟨params, hparams, hok⟩ := Option.map_eq_some_iff.mp h
  cases hq : parse params config with
  | error e => simp [hq, Except.toBool] at hok
  | ok q => exact ⟨params, q, pushAll_holds hparams, hq⟩

def rolesAndAges : QueryConfig where
  filterable := ["role".toList, "age".toList]
  sortable := ["age".toList]
  defaultSize := 20
  maxSize := 100

def oneFilter : List (Text × Text) :=
  [("filter".toList, "role:eq:ADMIN,age:gt:18".toList), ("sort".toList, "-age".toList),
    ("filter[role][ne]".toList, "USER".toList), ("size".toList, "0".toList)]

def twoFilters : List (Text × Text) :=
  [("filter".toList, "role:eq:ADMIN".toList), ("filter".toList, "age:gt:18".toList)]

end QuerySpec

end Kernway
