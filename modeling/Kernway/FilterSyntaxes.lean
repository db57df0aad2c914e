import Kernway.QueryParsing
import Mathlib.Data.Bool.AllAny

namespace Kernway

/-- The operators that `buildSpec` knows. -/
inductive FilterOp
  | compare (op : CompareOp)
  | like
  | in_

namespace FilterOp

def name : FilterOp → Text
  | compare .eq => "eq".toList
  | compare .ne => "ne".toList
  | compare .gt => "gt".toList
  | compare .lt => "lt".toList
  | compare .gte => "gte".toList
  | compare .lte => "lte".toList
  | like => "like".toList
  | in_ => "in".toList

/-- The leaf that `buildSpec` makes. -/
def leaf (field value : Text) : FilterOp → Spec
  | compare op => .compare op field value
  | like => .like field value
  | in_ => .in_ field (value.splitOn ',')

theorem buildSpec_name (op : FilterOp) (field value : Text) :
    buildSpec field op.name value = .ok (op.leaf field value) := by
  cases op with
  | compare op => cases op <;> rfl
  | like => rfl
  | in_ => rfl

theorem buildSpec_eq_ok {field op value : Text} {spec : Spec}
    (h : buildSpec field op value = .ok spec) :
    ∃ o : FilterOp, op = o.name ∧ spec = o.leaf field value := by
  unfold buildSpec at h
  split at h
  next hop => exact ⟨.compare .eq, hop, (Except.ok.inj h).symm⟩
  split at h
  next hop => exact ⟨.compare .ne, hop, (Except.ok.inj h).symm⟩
  split at h
  next hop => exact ⟨.compare .gt, hop, (Except.ok.inj h).symm⟩
  split at h
  next hop => exact ⟨.compare .lt, hop, (Except.ok.inj h).symm⟩
  split at h
  next hop => exact ⟨.compare .gte, hop, (Except.ok.inj h).symm⟩
  split at h
  next hop => exact ⟨.compare .lte, hop, (Except.ok.inj h).symm⟩
  split at h
  next hop => exact ⟨.like, hop, (Except.ok.inj h).symm⟩
  split at h
  next hop => exact ⟨.in_, hop, (Except.ok.inj h).symm⟩
  next => cases h

theorem leaf_inj {a b : FilterOp} {field field' value value' : Text}
    (h : a.leaf field value = b.leaf field' value') : a = b ∧ field = field' ∧ value = value' := by
  cases a with
  | compare op =>
    cases b with
    | compare op' =>
      cases h
      exact ⟨rfl, rfl, rfl⟩
    | like => cases h
    | in_ => cases h
  | like =>
    cases b with
    | compare op' => cases h
    | like =>
      cases h
      exact ⟨rfl, rfl, rfl⟩
    | in_ => cases h
  | in_ =>
    cases b with
    | compare op' => cases h
    | like => cases h
    | in_ =>
      obtain ⟨rfl, hsplit⟩ := Spec.in_.inj h
      refine ⟨rfl, rfl, ?_⟩
      have hjoin : [','].intercalate (value.splitOn ',') = value := List.intercalate_splitOn ','
      rw [hsplit, List.intercalate_splitOn] at hjoin
      exact hjoin.symm

theorem conjuncts_leaf (op : FilterOp) (field value : Text) :
    (op.leaf field value).conjuncts = [op.leaf field value] := by
  cases op <;> rfl

/-- No operator's name has a character that either syntax reads. -/
theorem name_plain (op : FilterOp) : ∀ c ∈ op.name, c ≠ ',' ∧ c ≠ ':' ∧ c ≠ ']' ∧ c ≠ '[' := by
  have hall : (op.name.all fun c => c ≠ ',' ∧ c ≠ ':' ∧ c ≠ ']' ∧ c ≠ '[') = true := by
    cases op with
    | compare op => cases op <;> decide
    | like => decide
    | in_ => decide
  exact List.all_iff_forall_prop.mp hall

theorem name_ne_nil (op : FilterOp) : op.name ≠ [] := by
  cases op with
  | compare op => cases op <;> decide
  | like => decide
  | in_ => decide

theorem name_inj {a b : FilterOp} (h : a.name = b.name) : a = b := by
  have hleaf := (buildSpec_name a [] []).symm.trans ((congrArg (buildSpec [] · []) h).trans
    (buildSpec_name b [] []))
  exact (leaf_inj (Except.ok.inj hleaf)).1

end FilterOp

/-- A condition of the list endpoint, the operator left out or not. -/
structure FilterCondition where
  field : Text
  op : Option FilterOp
  value : Text

namespace FilterCondition

/-- `field:op:value`, or `field:value`. -/
def compact (c : FilterCondition) : Text :=
  match c.op with
  | none => c.field ++ ':' :: c.value
  | some op => c.field ++ ':' :: (op.name ++ ':' :: c.value)

/-- `field]` or `field][op]`, what follows `filter[` in the key. -/
def inner (c : FilterCondition) : Text :=
  match c.op with
  | none => c.field ++ [']']
  | some op => c.field ++ "][".toList ++ op.name ++ [']']

def key (c : FilterCondition) : Text := filterKey ++ c.inner

/-- The operator, `eq` by default. -/
def operator (c : FilterCondition) : FilterOp := c.op.getD (.compare .eq)

/-- Both syntaxes can write the condition. -/
structure Writable (c : FilterCondition) : Prop where
  colon : ':' ∉ c.field
  comma : ',' ∉ c.field
  bracket : cutText "][".toList c.field = none
  closing : c.op = none → c.field.getLast? ≠ some ']'
  value : ',' ∉ c.value
  default : c.op = none → ':' ∉ c.value

end FilterCondition

/-- `filter=field:op:value,...` -/
def compactForm (conditions : List FilterCondition) : List (Text × Text) :=
  [("filter".toList, [','].intercalate (conditions.map FilterCondition.compact))]

/-- `filter[field][op]=value&...` -/
def jsonapiForm (conditions : List FilterCondition) : List (Text × Text) :=
  conditions.map fun c => (c.key, c.value)

/-- The two parameter lists are parsed to the same predicate. -/
def SameTree (config : QueryConfig) (p p' : QueryParams) : Prop :=
  ∃ q q', QuerySpec.parse p config = .ok q ∧ QuerySpec.parse p' config = .ok q' ∧ q.spec = q'.spec

theorem flatten_splitOn {α : Type} [DecidableEq α] (d : α) (xs : List α) :
    (xs.splitOn d).flatten = xs.filter (· ≠ d) := by
  induction xs with
  | nil => rfl
  | cons x xs ih =>
    rw [List.splitOn_cons_eq_if_modifyHead]
    by_cases hx : x = d
    · simp [hx, ih]
    · obtain ⟨piece, pieces, hsplit⟩ := List.exists_cons_of_ne_nil (List.splitOn_ne_nil d xs)
      rw [hsplit] at ih ⊢
      simpa [hx] using ih

theorem flatten_commaTerms (s : Text) : (commaTerms s).flatten = s.filter (· ≠ ',') := by
  rw [← flatten_splitOn, commaTerms]
  induction s.splitOn ',' with
  | nil => rfl
  | cons piece pieces ih =>
    by_cases hpiece : piece = []
    · simpa [hpiece] using ih
    · simpa [hpiece] using ih

theorem commaTerms_single {s t : Text} (h : commaTerms s = [t]) : t = s.filter (· ≠ ',') := by
  rw [← flatten_commaTerms, h, List.flatten_singleton]

theorem commaTerms_of_notMem {s : Text} (hs : ',' ∉ s) (hne : s ≠ []) : commaTerms s = [s] := by
  simp [commaTerms, List.splitOn_eq_singleton hs, hne]

theorem commaTerms_append (s t : Text) :
    commaTerms (s ++ ',' :: t) = commaTerms s ++ commaTerms t := by
  rw [commaTerms, List.splitOn_append_cons_self, List.filter_append]
  rfl

theorem commaTerms_intercalate (terms : List Text) :
    commaTerms ([','].intercalate terms) = terms.flatMap commaTerms := by
  induction terms with
  | nil => rfl
  | cons term terms ih =>
    cases terms with
    | nil => simp
    | cons next terms =>
      rw [List.intercalate_cons_cons, List.append_assoc, List.singleton_append, commaTerms_append, ih,
        ← List.flatMap_cons]

/-- The first `][` of a text before another one is the first of all. -/
theorem cutText_bracket (s rest : Text) : cutText "][".toList (s ++ "][".toList ++ rest) =
    match cutText "][".toList s with
    | none => some (s, rest)
    | some (before, after) => some (before, after ++ "][".toList ++ rest) := by
  induction s with
  | nil => rfl
  | cons c s ih =>
    have hpre : "][".toList.isPrefixOf (c :: (s ++ "][".toList ++ rest)) =
        "][".toList.isPrefixOf (c :: s) := by
      cases s with
      | nil => simp [List.isPrefixOf]
      | cons d s => simp [List.isPrefixOf]
    rw [List.cons_append, List.cons_append, cutText, cutText, hpre]
    split
    next h =>
      obtain ⟨t, ht⟩ := List.isPrefixOf_iff_prefix.mp h
      obtain ⟨rfl, rfl⟩ := List.cons.inj ht
      rfl
    next =>
      rw [ih]
      cases cutText "][".toList s <;> rfl

theorem cutKey_none {body : Text} (h : cutText "][".toList body = none) :
    cutKey body = (body, none) := by
  rw [cutKey, h]

theorem cutKey_some {name op : Text} (hname : cutText "][".toList name = none)
    (hop : cutText "][".toList op = none) : cutKey (name ++ "][".toList ++ op) = (name, some op) := by
  rw [cutKey, cutText_bracket, hname]
  simp only [hop]

theorem cutText_name (op : FilterOp) : cutText "][".toList op.name = none := by
  cases op with
  | compare op => cases op <;> rfl
  | like => rfl
  | in_ => rfl

theorem filterField_eq_ok {config : QueryConfig} {name field : Text}
    (h : config.filterField name = .ok field) : field = name := by
  unfold QueryConfig.filterField at h
  split at h
  next found hfound =>
    cases h
    have heq := List.find?_some hfound
    exact eq_of_beq heq
  next => cases h

theorem filterField_of_mem {config : QueryConfig} {name : Text} (h : name ∈ config.filterable) :
    config.filterField name = .ok name := by
  unfold QueryConfig.filterField
  split
  next found hfound =>
    have heq := List.find?_some hfound
    rw [eq_of_beq heq]
  next hnone =>
    have hne := List.find?_eq_none.mp hnone name h
    simp at hne

theorem parseCompactTerm_eq_ok {config : QueryConfig} {term : Text} {spec : Spec}
    (h : parseCompactTerm config term = .ok spec) :
    ∃ name, ∃ op : FilterOp, ∃ value, compactParts term = some (name, op.name, value) ∧
      spec = op.leaf name value := by
  unfold parseCompactTerm at h
  split at h
  next => cases h
  next name op value hparts =>
    obtain ⟨field, hfield, hbuild⟩ := bind_eq_ok_iff.mp h
    obtain ⟨o, rfl, rfl⟩ := FilterOp.buildSpec_eq_ok hbuild
    rw [filterField_eq_ok hfield]
    exact ⟨name, o, value, hparts, rfl⟩

theorem parseJsonapiFilter_eq_ok {config : QueryConfig} {inner value : Text} {spec : Spec}
    (h : parseJsonapiFilter config inner value = .ok spec) :
    ∃ name o, ∃ op : FilterOp, cutKey (inner.rdropWhile (· = ']')) = (name, o) ∧
      o.getD "eq".toList = op.name ∧ spec = op.leaf name value := by
  obtain ⟨field, hfield, hbuild⟩ := bind_eq_ok_iff.mp h
  obtain ⟨op, hop, rfl⟩ := FilterOp.buildSpec_eq_ok hbuild
  rw [filterField_eq_ok hfield]
  exact ⟨_, _, op, rfl, hop, rfl⟩

/-- The field and the operator, where the term has one, end at the first two colons. -/
theorem compactParts_eq_some {term name op value : Text}
    (h : compactParts term = some (name, op, value)) :
    ':' ∉ name ∧ (':' ∉ value ∧ term = name ++ ':' :: value ∨
      term = name ++ ':' :: (op ++ ':' :: value)) := by
  unfold compactParts at h
  split at h
  next => cases h
  next before rest hcut =>
    obtain ⟨rfl, hbefore⟩ := cutAt_eq_some_iff.mp hcut
    split at h
    next hnone =>
      cases h
      exact ⟨hbefore, .inl ⟨cutAt_eq_none_iff.mp hnone, rfl⟩⟩
    next op' value' hcut' =>
      cases h
      obtain ⟨rfl, -⟩ := cutAt_eq_some_iff.mp hcut'
      exact ⟨hbefore, .inr rfl⟩

namespace FilterCondition

variable {c : FilterCondition} {config : QueryConfig}

theorem body_none (field : Text) :
    (field ++ [']']).rdropWhile (· = ']') = field.rdropWhile (· = ']') :=
  List.rdropWhile_concat_pos _ _ _ (by simp)

theorem body_some (field : Text) (op : FilterOp) :
    (field ++ "][".toList ++ op.name ++ [']']).rdropWhile (· = ']') =
      field ++ "][".toList ++ op.name := by
  rw [List.rdropWhile_concat_pos _ _ _ (by simp), List.rdropWhile_eq_self_iff]
  intro hne hlast
  have hmem : (field ++ "][".toList ++ op.name).getLast hne ∈ op.name := by
    rw [List.getLast_append_of_ne_nil]
    exact List.getLast_mem op.name_ne_nil
  exact (op.name_plain _ hmem).2.2.1 (by simpa using hlast)

theorem body_eq_self {field : Text} :
    field.rdropWhile (· = ']') = field ↔ field.getLast? ≠ some ']' := by
  rw [List.rdropWhile_eq_self_iff]
  constructor
  · intro h hlast
    obtain ⟨init, rfl⟩ := List.getLast?_eq_some_iff.mp hlast
    exact h (by simp) (by simp)
  · intro h hne hlast
    apply h
    rw [List.getLast?_eq_some_getLast hne]
    simpa using hlast

/-- What the key is read as: a part of the field that ends before a bracket, if not all of it. -/
theorem cutKey_inner (c : FilterCondition) : ∃ name o rest,
    cutKey (c.inner.rdropWhile (· = ']')) = (name, o) ∧ c.field = name ++ rest ∧
      (∀ d ∈ rest.head?, d = ']') ∧
      (rest = [] → o.getD "eq".toList = c.operator.name ∧ cutText "][".toList c.field = none ∧
        (c.op = none → c.field.getLast? ≠ some ']')) := by
  obtain ⟨field, op, value⟩ := c
  cases op with
  | none =>
    have hfield : field.rdropWhile (· = ']') ++ field.rtakeWhile (· = ']') = field :=
      List.rdropWhile_append_rtakeWhile
    show ∃ name o rest, cutKey ((field ++ [']']).rdropWhile (· = ']')) = (name, o) ∧ _
    rw [body_none]
    cases hcut : cutText "][".toList (field.rdropWhile (· = ']')) with
    | none =>
      refine ⟨_, none, field.rtakeWhile (· = ']'), by rw [cutKey, hcut], hfield.symm, ?_, ?_⟩
      · intro d hd
        simpa using List.mem_rtakeWhile_imp (List.mem_of_mem_head? hd)
      · intro hnil
        rw [hnil, List.append_nil] at hfield
        rw [hfield] at hcut
        exact ⟨rfl, hcut, fun _ => body_eq_self.1 hfield⟩
    | some cut =>
      obtain ⟨name, after⟩ := cut
      have hbefore := cutText_eq_some hcut
      have hname : ∃ o, cutKey (field.rdropWhile (· = ']')) = (name, o) := by
        rw [cutKey, hcut]
        dsimp only
        split
        · exact ⟨_, rfl⟩
        · exact ⟨_, rfl⟩
      obtain ⟨o, hkey⟩ := hname
      refine ⟨name, o, "][".toList ++ after ++ field.rtakeWhile (· = ']'), hkey, ?_, ?_, ?_⟩
      · apply hfield.symm.trans
        rw [hbefore, List.append_assoc, List.append_assoc, List.append_assoc]
      · intro d hd
        exact (Option.some.inj hd).symm
      · intro hnil
        cases hnil
  | some op =>
    show ∃ name o rest,
      cutKey ((field ++ "][".toList ++ op.name ++ [']']).rdropWhile (· = ']')) = (name, o) ∧ _
    rw [body_some]
    cases hcut : cutText "][".toList field with
    | none =>
      refine ⟨field, some op.name, [], cutKey_some hcut (cutText_name op), (List.append_nil _).symm,
        ?_, ?_⟩
      · intro d hd
        cases hd
      · intro _
        exact ⟨rfl, rfl, fun hnone => by cases hnone⟩
    | some cut =>
      obtain ⟨name, after⟩ := cut
      have hname : ∃ o, cutKey (field ++ "][".toList ++ op.name) = (name, o) := by
        rw [cutKey, cutText_bracket, hcut]
        dsimp only
        split
        · exact ⟨_, rfl⟩
        · exact ⟨_, rfl⟩
      obtain ⟨o, hkey⟩ := hname
      refine ⟨name, o, "][".toList ++ after, hkey, ?_, ?_, ?_⟩
      · show field = _
        rw [← List.append_assoc, ← cutText_eq_some hcut]
      · intro d hd
        exact (Option.some.inj hd).symm
      · intro hnil
        cases hnil

theorem compact_eq (c : FilterCondition) : ∃ tail, c.compact = c.field ++ ':' :: tail := by
  unfold compact
  split
  · exact ⟨_, rfl⟩
  · exact ⟨_, rfl⟩

theorem filter_comma_eq {s : Text} (h : ',' ∉ s) : s.filter (· ≠ ',') = s := by
  apply List.filter_eq_self.mpr
  intro d hd
  simp only [ne_eq, decide_not, Bool.not_eq_true', decide_eq_false_iff_not]
  rintro rfl
  exact h hd

theorem comma_of_filter_eq {s : Text} (h : s.filter (· ≠ ',') = s) : ',' ∉ s := by
  intro hmem
  have hkept := List.filter_eq_self.mp h ',' hmem
  simp at hkept

theorem comma_of_filter {s name tail : Text} (h : s.filter (· ≠ ',') = name ++ tail) :
    ',' ∉ name := by
  intro hmem
  have hkept : ',' ∈ s.filter (· ≠ ',') := by
    rw [h]
    exact List.mem_append_left _ hmem
  simp at hkept

/-- The field that both forms read is the whole field. -/
theorem rest_eq_nil {name rest tail : Text} (hfield : c.field = name ++ rest)
    (hrest : ∀ d ∈ rest.head?, d = ']')
    (hterm : c.compact.filter (· ≠ ',') = name ++ ':' :: tail) : rest = [] := by
  obtain ⟨tail', hcompact⟩ := c.compact_eq
  have hname : name.filter (· ≠ ',') = name := filter_comma_eq (comma_of_filter hterm)
  rw [hcompact, hfield, List.filter_append, List.filter_append, hname, List.append_assoc] at hterm
  have hcancel := List.append_cancel_left hterm
  cases rest with
  | nil => rfl
  | cons d rest =>
    obtain rfl := hrest d rfl
    cases hcancel

theorem writable_of_parse {spec : Spec}
    (hcompact : parseCompactTerm config (c.compact.filter (· ≠ ',')) = .ok spec)
    (hjson : parseJsonapiFilter config c.inner c.value = .ok spec) : c.Writable := by
  obtain ⟨name, op, value, hparts, rfl⟩ := parseCompactTerm_eq_ok hcompact
  obtain ⟨name', o, op', hkey, ho, hleaf⟩ := parseJsonapiFilter_eq_ok hjson
  obtain ⟨rfl, rfl, rfl⟩ := FilterOp.leaf_inj hleaf
  obtain ⟨name', o', rest, hkey', hfield, hrest, hwhole⟩ := c.cutKey_inner
  obtain ⟨rfl, rfl⟩ := Prod.mk.inj (hkey.symm.trans hkey')
  obtain ⟨hcolon, hterm⟩ := compactParts_eq_some hparts
  have hnil : rest = [] := by
    rcases hterm with ⟨-, hterm⟩ | hterm
    · exact rest_eq_nil hfield hrest hterm
    · exact rest_eq_nil hfield hrest hterm
  obtain ⟨hop, hbracket, hclosing⟩ := hwhole hnil
  rw [ho] at hop
  have hop := FilterOp.name_inj hop
  rw [hnil, List.append_nil] at hfield
  subst hfield
  have hcomma : ',' ∉ c.field := by
    rcases hterm with ⟨-, hterm⟩ | hterm
    · exact comma_of_filter hterm
    · exact comma_of_filter hterm
  have hfilter : c.compact.filter (· ≠ ',') = c.field ++ ':' :: match c.op with
      | none => c.value.filter (· ≠ ',')
      | some op => op.name ++ ':' :: c.value.filter (· ≠ ',') := by
    unfold compact
    cases c.op with
    | none => rw [List.filter_append, filter_comma_eq hcomma, List.filter_cons_of_pos (by decide)]
    | some op =>
      have hname : ',' ∉ op.name := fun h => (op.name_plain _ h).1 rfl
      rw [List.filter_append, filter_comma_eq hcomma, List.filter_cons_of_pos (by decide),
        List.filter_append, filter_comma_eq hname, List.filter_cons_of_pos (by decide)]
  have hvalue : ',' ∉ c.value ∧ (c.op = none → ':' ∉ c.value) := by
    have hlen := List.length_filter_le (· ≠ ',') c.value
    rw [hfilter] at hterm
    cases hc : c.op with
    | none =>
      rw [hc] at hterm
      rcases hterm with ⟨hplain, hterm⟩ | hterm
      · exact ⟨comma_of_filter_eq (List.cons.inj (List.append_cancel_left hterm)).2, fun _ => hplain⟩
      · have hsame := congrArg List.length (List.cons.inj (List.append_cancel_left hterm)).2
        simp only [List.length_append, List.length_cons] at hsame
        omega
    | some op' =>
      rw [operator, hc] at hop
      rw [hc] at hterm
      rcases hterm with ⟨hplain, hterm⟩ | hterm
      · have hsame := (List.cons.inj (List.append_cancel_left hterm)).2
        rw [← hsame] at hplain
        simp at hplain
      · have hsame := (List.cons.inj (List.append_cancel_left hterm)).2
        rw [hop] at hsame
        have hsame := (List.cons.inj (List.append_cancel_left hsame)).2
        exact ⟨comma_of_filter_eq hsame, fun hnone => by cases hnone⟩
  exact ⟨hcolon, hcomma, hbracket, hclosing, hvalue.1, hvalue.2⟩

theorem parse_of_writable (h : c.Writable) (hfield : c.field ∈ config.filterable) :
    parseCompactTerm config c.compact = .ok (c.operator.leaf c.field c.value) ∧
      parseJsonapiFilter config c.inner c.value = .ok (c.operator.leaf c.field c.value) := by
  have hparts : compactParts c.compact = some (c.field, c.operator.name, c.value) := by
    unfold compact compactParts operator
    cases hc : c.op with
    | none =>
      simp only [cutAt_eq_some_iff.mpr ⟨rfl, h.colon⟩, cutAt_eq_none_iff.mpr (h.default hc)]
      rfl
    | some op =>
      have hname : ':' ∉ op.name := fun hmem => (op.name_plain _ hmem).2.1 rfl
      simp only [cutAt_eq_some_iff.mpr ⟨rfl, h.colon⟩, cutAt_eq_some_iff.mpr ⟨rfl, hname⟩]
      rfl
  have hkey : ∃ o, cutKey (c.inner.rdropWhile (· = ']')) = (c.field, o) ∧
      o.getD "eq".toList = c.operator.name := by
    unfold inner operator
    cases hc : c.op with
    | none =>
      rw [body_none, body_eq_self.2 (h.closing hc), cutKey_none h.bracket]
      exact ⟨_, rfl, rfl⟩
    | some op =>
      rw [body_some, cutKey_some h.bracket (cutText_name op)]
      exact ⟨_, rfl, rfl⟩
  obtain ⟨o, hkey, ho⟩ := hkey
  constructor
  · unfold parseCompactTerm
    rw [hparts]
    simp only [filterField_of_mem hfield]
    exact FilterOp.buildSpec_name ..
  · unfold parseJsonapiFilter
    rw [hkey]
    simp only [filterField_of_mem hfield]
    rw [ho]
    exact FilterOp.buildSpec_name ..

theorem Writable.commaTerms_compact (h : c.Writable) : commaTerms c.compact = [c.compact] := by
  apply commaTerms_of_notMem
  · unfold compact
    split
    · simp [h.comma, h.value]
    · next op _ =>
      have hname : ',' ∉ op.name := fun hmem => (op.name_plain _ hmem).1 rfl
      simp [h.comma, h.value, hname]
  · obtain ⟨tail, hcompact⟩ := c.compact_eq
    rw [hcompact]
    simp

theorem length_commaTerms (c : FilterCondition) : 1 ≤ (commaTerms c.compact).length := by
  apply List.length_pos_of_ne_nil
  intro hnil
  obtain ⟨tail, hcompact⟩ := c.compact_eq
  have hflat := flatten_commaTerms c.compact
  rw [hnil, hcompact, List.filter_append, List.filter_cons_of_pos (by decide)] at hflat
  simp at hflat

end FilterCondition

variable {config : QueryConfig} {conditions : List FilterCondition} {p p' : QueryParams}

theorem readTerms_compactForm (conditions : List FilterCondition) :
    QuerySpec.readTerms (compactForm conditions) =
      (conditions.flatMap fun c => commaTerms c.compact).map .compact := by
  have hterms := commaTerms_intercalate (conditions.map FilterCondition.compact)
  rw [List.flatMap_map] at hterms
  have hvalues : valuesOf "filter".toList (compactForm conditions) =
      [[','].intercalate (conditions.map FilterCondition.compact)] := by
    simp [valuesOf, compactForm]
  rw [QuerySpec.readTerms, hvalues, ← hterms]
  exact List.append_nil _

theorem valuesOf_jsonapiForm {name : Text} (h : filterKey.isPrefixOf name = false) :
    valuesOf name (jsonapiForm conditions) = [] := by
  unfold valuesOf jsonapiForm
  rw [List.map_eq_nil_iff, List.filter_eq_nil_iff]
  intro param hparam
  obtain ⟨c, -, rfl⟩ := List.mem_map.mp hparam
  simp only [decide_eq_true_eq]
  rintro rfl
  have hprefix := List.isPrefixOf_iff_prefix.mpr (List.prefix_append filterKey c.inner)
  rw [FilterCondition.key, hprefix] at h
  cases h

theorem readTerms_jsonapiForm (conditions : List FilterCondition) :
    QuerySpec.readTerms (jsonapiForm conditions) =
      conditions.map fun c => .jsonapi c.inner c.value := by
  have hinner : (fun param : Text × Text => (filterKey.isPrefixOf? param.1).map fun inner =>
      FilterTerm.jsonapi inner param.2) ∘ (fun c : FilterCondition => (c.key, c.value)) =
        some ∘ fun c => .jsonapi c.inner c.value := by
    funext c
    simp only [Function.comp_apply, FilterCondition.key, isPrefixOf?_append, Option.map_some]
  rw [QuerySpec.readTerms, valuesOf_jsonapiForm (by decide), jsonapiForm, List.filterMap_map, hinner,
    List.filterMap_eq_map]
  rfl

theorem length_le_flatMap {α β : Type} {f : α → List β} (h : ∀ x, 1 ≤ (f x).length) (xs : List α) :
    xs.length ≤ (xs.flatMap f).length := by
  induction xs with
  | nil => exact Nat.zero_le _
  | cons x xs ih =>
    have hx := h x
    rw [List.flatMap_cons, List.length_append, List.length_cons]
    omega

/-- The terms of the two forms are as many, and equal one by one. -/
theorem writable_of_mapM {specs : List Spec}
    (hcompact : (conditions.flatMap fun c => commaTerms c.compact).mapM (parseCompactTerm config) =
      .ok specs)
    (hjson : (conditions.mapM fun c => parseJsonapiFilter config c.inner c.value) = .ok specs) :
    ∀ c ∈ conditions, c.Writable := by
  induction conditions generalizing specs with
  | nil =>
    intro c hc
    cases hc
  | cons c cs ih =>
    have hleft := length_of_mapM hcompact
    have hright := length_of_mapM hjson
    rw [List.flatMap_cons, List.mapM_append] at hcompact
    obtain ⟨front, hfront, hcompact⟩ := bind_eq_ok_iff.mp hcompact
    obtain ⟨back, hback, hcompact⟩ := bind_eq_ok_iff.mp hcompact
    rw [List.mapM_cons] at hjson
    obtain ⟨spec, hspec, hjson⟩ := bind_eq_ok_iff.mp hjson
    obtain ⟨specs', hspecs', hjson⟩ := bind_eq_ok_iff.mp hjson
    cases hjson
    have happend : front ++ back = spec :: specs' := Except.ok.inj hcompact
    have hfrontLen := length_of_mapM hfront
    have hbackLen := length_of_mapM hback
    have hrestLen := length_of_mapM hspecs'
    have hone := c.length_commaTerms
    have hmany := length_le_flatMap (fun c : FilterCondition => c.length_commaTerms) cs
    have hlen := congrArg List.length happend
    rw [List.length_append, List.length_cons] at hlen
    obtain ⟨term, hterm⟩ : ∃ term, commaTerms c.compact = [term] :=
      List.length_eq_one_iff.mp (by omega)
    rw [hterm] at hfront
    have hsingle : front = [spec] ∧ back = specs' := by
      rw [hterm] at hfrontLen
      obtain ⟨spec', rfl⟩ := List.length_eq_one_iff.mp hfrontLen
      obtain ⟨rfl, rfl⟩ := List.cons.inj happend
      exact ⟨rfl, rfl⟩
    obtain ⟨rfl, rfl⟩ := hsingle
    have hparse : parseCompactTerm config term = .ok spec := by
      rw [List.mapM_cons] at hfront
      obtain ⟨spec', hspec', hfront⟩ := bind_eq_ok_iff.mp hfront
      cases hfront
      exact hspec'
    intro d hd
    rcases List.mem_cons.mp hd with rfl | hd
    · rw [commaTerms_single hterm] at hparse
      exact FilterCondition.writable_of_parse hparse hspec
    · exact ih hback hspecs' d hd

theorem leaves {terms : List FilterTerm} {specs : List Spec}
    (h : terms.mapM (FilterTerm.parse config) = .ok specs) :
    ∀ spec ∈ specs, spec.conjuncts = [spec] := by
  intro spec hspec
  obtain ⟨term, -, hterm⟩ := exists_of_mem_mapM h hspec
  exact (FilterTerm.parse_leaf hterm).2

theorem parse_of_conditions {specs : List Spec}
    (hspecs : QuerySpec.parseConditions p config = .ok specs)
    (hsort : p.get "sort".toList = none) (hmax : 1 ≤ config.maxSize) :
    ∃ q, QuerySpec.parse p config = .ok q ∧ q.spec = QuerySpec.conjoin specs := by
  have hsorts : QuerySpec.parseSort p config = .ok [] := by
    rw [QuerySpec.parseSort, hsort]
    rfl
  unfold QuerySpec.parse
  rw [hspecs, hsorts]
  simp [Except.mapError, bind, Except.bind, clamp, hmax, pure, Except.pure]

/-- The two forms mean the same if and only if both can write every condition. -/
theorem sameTree_iff (hp : p.Holds (compactForm conditions)) (hp' : p'.Holds (jsonapiForm conditions))
    (hfields : ∀ c ∈ conditions, c.field ∈ config.filterable) :
    SameTree config p p' ↔ 1 ≤ config.maxSize ∧ ∀ c ∈ conditions, c.Writable := by
  constructor
  · rintro ⟨q, q', hq, hq', hspec⟩
    obtain ⟨specs, n, hspecs, -, hqspec, hclamp⟩ := QuerySpec.parse_eq_ok hq
    obtain ⟨specs', n', hspecs', -, hqspec', -⟩ := QuerySpec.parse_eq_ok hq'
    have hbounds := QuerySpec.clamp_eq_some hclamp
    refine ⟨by omega, ?_⟩
    rw [QuerySpec.parseConditions_eq hp] at hspecs
    rw [QuerySpec.parseConditions_eq hp'] at hspecs'
    have hsame : specs = specs' := by
      rw [← QuerySpec.conjuncts_conjoin (leaves hspecs), ← QuerySpec.conjuncts_conjoin (leaves hspecs'),
        ← hqspec, ← hqspec', hspec]
    subst hsame
    rw [readTerms_compactForm, List.mapM_map] at hspecs
    rw [readTerms_jsonapiForm, List.mapM_map] at hspecs'
    exact writable_of_mapM hspecs hspecs'
  · rintro ⟨hmax, hwritable⟩
    have hparse := fun c hc => FilterCondition.parse_of_writable (hwritable c hc) (hfields c hc)
    have hterms : (conditions.flatMap fun c => commaTerms c.compact) =
        conditions.map FilterCondition.compact := by
      rw [List.map_eq_flatMap]
      exact List.flatMap_congr fun c hc => (hwritable c hc).commaTerms_compact
    have hsort : p.get "sort".toList = none := by
      rw [QuerySpec.get_eq_getLast hp]
      rfl
    have hsort' : p'.get "sort".toList = none := by
      rw [QuerySpec.get_eq_getLast hp', valuesOf_jsonapiForm (by decide)]
      rfl
    have hspecs : QuerySpec.parseConditions p config =
        .ok (conditions.map fun c => c.operator.leaf c.field c.value) := by
      rw [QuerySpec.parseConditions_eq hp, readTerms_compactForm, hterms, List.mapM_map, List.mapM_map]
      exact mapM_ok fun c hc => (hparse c hc).1
    have hspecs' : QuerySpec.parseConditions p' config =
        .ok (conditions.map fun c => c.operator.leaf c.field c.value) := by
      rw [QuerySpec.parseConditions_eq hp', readTerms_jsonapiForm, List.mapM_map]
      exact mapM_ok fun c hc => (hparse c hc).2
    obtain ⟨q, hq, hspec⟩ := parse_of_conditions hspecs hsort hmax
    obtain ⟨q', hq', hspec'⟩ := parse_of_conditions hspecs' hsort' hmax
    exact ⟨q, q', hq, hq', hspec.trans hspec'.symm⟩

theorem exists_pushAll (pairs : List (Text × Text)) (h : (QuerySpec.pushAll pairs).isSome = true) :
    ∃ p, QuerySpec.pushAll pairs = some p ∧ Fields.Holds p pairs := by
  obtain ⟨p, hp⟩ := Option.isSome_iff_exists.mp h
  exact ⟨p, hp, QuerySpec.pushAll_holds hp⟩

def adminsOver18 : List FilterCondition :=
  [⟨"role".toList, none, "ADMIN".toList⟩, ⟨"age".toList, some (.compare .gt), "18".toList⟩]

theorem sameTree_adminsOver18 : ∃ p p', Fields.Holds p (compactForm adminsOver18) ∧
    Fields.Holds p' (jsonapiForm adminsOver18) ∧ SameTree QuerySpec.rolesAndAges p p' := by
  obtain ⟨p, -, hp⟩ := exists_pushAll (compactForm adminsOver18) (by decide +kernel)
  obtain ⟨p', -, hp'⟩ := exists_pushAll (jsonapiForm adminsOver18) (by decide +kernel)
  refine ⟨p, p', hp, hp', (sameTree_iff hp hp' ?_).mpr ⟨by decide, ?_⟩⟩
  · intro c hc
    rcases List.mem_cons.mp hc with rfl | hc
    · decide
    · rw [List.mem_singleton.mp hc]
      decide
  · intro c hc
    rcases List.mem_cons.mp hc with rfl | hc
    · exact ⟨by decide, by decide, by decide, fun _ => by decide, by decide, fun _ => by decide⟩
    · rw [List.mem_singleton.mp hc]
      exact ⟨by decide, by decide, by decide, fun _ => by decide, by decide, fun _ => by decide⟩

def adminsAndUsers : List FilterCondition :=
  [⟨"role".toList, some .in_, "ADMIN,USER".toList⟩]

/-- The comma of an `in` list ends the compact term. -/
theorem not_sameTree : ¬ ∀ (config : QueryConfig) (conditions : List FilterCondition)
    (p p' : QueryParams), Fields.Holds p (compactForm conditions) →
    Fields.Holds p' (jsonapiForm conditions) →
    (∀ c ∈ conditions, c.field ∈ config.filterable ∧ (c.op = some .in_ ∨ ',' ∉ c.value)) →
    SameTree config p p' := by
  intro hall
  obtain ⟨p, hpush, hp⟩ := exists_pushAll (compactForm adminsAndUsers) (by decide +kernel)
  obtain ⟨p', -, hp'⟩ := exists_pushAll (jsonapiForm adminsAndUsers) (by decide +kernel)
  have hfields : ∀ c ∈ adminsAndUsers, c.field ∈ QuerySpec.rolesAndAges.filterable ∧
      (c.op = some .in_ ∨ ',' ∉ c.value) := by
    intro c hc
    rw [List.mem_singleton.mp hc]
    exact ⟨by decide, .inl rfl⟩
  obtain ⟨q, -, hq, -, -⟩ := hall QuerySpec.rolesAndAges adminsAndUsers p p' hp hp' hfields
  have hfails : (QuerySpec.pushAll (compactForm adminsAndUsers)).map
      (fun p => (QuerySpec.parse p QuerySpec.rolesAndAges).toBool) = some false := by
    decide +kernel
  rw [hpush, Option.map_some, hq] at hfails
  cases hfails

end Kernway
