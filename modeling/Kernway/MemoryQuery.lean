import Kernway.Decimal
import Kernway.OrmSpec

namespace Kernway

/-- A field of a serialised entity; of the numbers, the integers. -/
inductive FieldValue
  | string (s : Text)
  | integer (n : Int)
  | bool (b : Bool)
  | null

/-- `to_string` of an integer. -/
def decimalInt : Int → Text
  | .ofNat n => Nat.toDigits 10 n
  | .negSucc n => '-' :: Nat.toDigits 10 (n + 1)

def boolText (b : Bool) : Text := if b then "true".toList else "false".toList

/-- A predicate of the in-memory builder; the six comparisons are one case. -/
inductive MemoryFilter
  | compare (op : CompareOp) (field value : Text)
  | like (field pattern : Text)
  | in_ (field : Text) (values : List Text)
  | between (field lo hi : Text)
  | isNull (field : Text)
  | isNotNull (field : Text)

/-- An entity as its serialisation shows it: the value of a field, if it has one. -/
abbrev SerialEntity := Text → Option FieldValue

def rawFieldValue (entity : SerialEntity) (field : Text) : Option FieldValue := entity field

/-- The field's value, where it is a string, a number or a boolean. -/
def fieldValue (entity : SerialEntity) (field : Text) : Option FieldValue :=
  match rawFieldValue entity field with
  | some .null => none
  | value => value

def FieldValue.text : FieldValue → Option Text
  | string s => some s
  | integer n => some (decimalInt n)
  | bool b => some (boolText b)
  | null => none

def FieldValue.isNull : FieldValue → Bool
  | null => true
  | _ => false

def getFieldStr (entity : SerialEntity) (field : Text) : Option Text :=
  (fieldValue entity field).bind FieldValue.text

def cmpFieldToQuery (value : FieldValue) (query : Text) : Option Ordering :=
  match value with
  | .integer n =>
    match parseF64 query with
    | some rhs => (F64.ofRat n).partialCmp rhs
    | none => some (compareText (decimalInt n) query)
  | .string s => some (compareText s query)
  | .bool b => some (compareText (boolText b) query)
  | .null => none

def MemoryFilter.keeps (entity : SerialEntity) : MemoryFilter → Bool
  | .compare .eq field value => (getFieldStr entity field).any (· == value)
  | .compare .ne field value => (getFieldStr entity field).any (· != value)
  | .compare op field value =>
    ((fieldValue entity field).bind (cmpFieldToQuery · value)).any op.holds
  | .like field pattern => (getFieldStr entity field).any (containsText · pattern)
  | .in_ field values => (fieldValue entity field).any fun candidate =>
    values.any fun value => cmpFieldToQuery candidate value == some .eq
  | .between field lo hi => (fieldValue entity field).any fun candidate =>
    (cmpFieldToQuery candidate lo).any CompareOp.gte.holds &&
      (cmpFieldToQuery candidate hi).any CompareOp.lte.holds
  | .isNull field => (rawFieldValue entity field).any FieldValue.isNull
  | .isNotNull field => (rawFieldValue entity field).any fun value => !value.isNull

/-- The builder without its store. -/
structure MemoryQueryBuilder where
  filters : List MemoryFilter := []
  spec : Option Spec := none
  order : Option (SortDir × Text) := none
  limit : Option UInt64 := none
  offset : UInt64 := 0

namespace MemoryQueryBuilder

def call (builder : MemoryQueryBuilder) : QueryCall → MemoryQueryBuilder
  | .compare op field value =>
    { builder with filters := builder.filters ++ [.compare op field value] }
  | .like field pattern => { builder with filters := builder.filters ++ [.like field pattern] }
  | .in_ field values => { builder with filters := builder.filters ++ [.in_ field values] }
  | .between field lo hi => { builder with filters := builder.filters ++ [.between field lo hi] }
  | .isNull field => { builder with filters := builder.filters ++ [.isNull field] }
  | .isNotNull field => { builder with filters := builder.filters ++ [.isNotNull field] }
  | .spec spec => { builder with spec := some spec }
  | .orderByAsc field => { builder with order := some (.asc, field) }
  | .orderByDesc field => { builder with order := some (.desc, field) }
  | .limit n => { builder with limit := some n }
  | .offset n => { builder with offset := n }
  | .with_ _ => builder

def matchesFilters (builder : MemoryQueryBuilder) (entity : SerialEntity) : Bool :=
  builder.filters.all (MemoryFilter.keeps entity) &&
    match builder.spec with
    | some spec => spec.matches (getFieldStr entity)
    | none => true

end MemoryQueryBuilder

namespace MemoryFilter

/-- The field that the filter reads. -/
def field : MemoryFilter → Text
  | compare _ field _ | like field _ | in_ field _ | between field _ _ | isNull field
  | isNotNull field => field

/-- The fluent call. -/
def fluent : MemoryFilter → QueryCall
  | compare op field value => .compare op field value
  | like field pattern => .like field pattern
  | in_ field values => .in_ field values
  | between field lo hi => .between field lo hi
  | isNull field => .isNull field
  | isNotNull field => .isNotNull field

/-- The leaf of the same meaning. -/
def spec : MemoryFilter → Spec
  | compare op field value => .compare op field value
  | like field pattern => .like field pattern
  | in_ field values => .in_ field values
  | between field lo hi => .between field lo hi
  | isNull field => .isNull field
  | isNotNull field => .isNotNull field

/-- If both texts are numbers, the operator says the same of the texts as of the numbers. -/
def SaysSame (op : CompareOp) (text query : Text) : Prop :=
  ∀ a b, parseF64 text = some a → parseF64 query = some b →
    op.holds (compareText text query) = (a.partialCmp b).any op.holds

/-- The two texts are the same number, though one may be spelled otherwise. -/
def SameNumber (text query : Text) : Prop :=
  ∃ a b, parseF64 text = some a ∧ parseF64 query = some b ∧ a.partialCmp b = some .eq

/-- A text is outside a range, read as texts and read as `Spec` reads it. -/
def OutsideBoth (text lo hi : Text) : Prop :=
  (compareText text lo = .lt ∨ compareText text hi = .gt) ∧
    ((cmp (some text) lo).any CompareOp.gte.holds = false ∨
      (cmp (some text) hi).any CompareOp.lte.holds = false)

/-- The filter and its leaf read the field's value to the same answer. -/
def ReadsAlike (value : Option FieldValue) : MemoryFilter → Prop
  | compare op _ query =>
    match value with
    | some (.string s) => SaysSame op s query
    | some (.integer n) => op = .eq ∨ op = .ne → SaysSame op (decimalInt n) query
    | _ => True
  | like _ _ => True
  | in_ _ values =>
    match value with
    | some (.string s) => (s ∈ values → parseF64 s ≠ some .nan) ∧
      (s ∉ values → ∀ query ∈ values, ¬ SameNumber s query)
    | _ => True
  | between _ lo hi =>
    match value with
    | some (.string s) => SaysSame .gte s lo ∧ SaysSame .lte s hi ∨ OutsideBoth s lo hi
    | _ => True
  | isNull _ => value ≠ none ∧ value ≠ some (.string [])
  | isNotNull _ => value ≠ some (.string [])

end MemoryFilter

theorem compareText_eq_eq {s t : Text} : compareText s t = .eq ↔ s = t := by
  induction s generalizing t with
  | nil =>
    cases t with
    | nil => simp [compareText]
    | cons d t => simp [compareText]
  | cons c s ih =>
    cases t with
    | nil => simp [compareText]
    | cons d t =>
      unfold compareText
      split
      next hlt =>
        simp only [reduceCtorEq, List.cons.injEq, false_iff, not_and]
        rintro rfl
        omega
      next hle =>
        split
        next hlt =>
          simp only [reduceCtorEq, List.cons.injEq, false_iff, not_and]
          rintro rfl
          omega
        next hge =>
          have heq : c = d := Char.toNat_inj.mp (by omega)
          rw [ih, heq, List.cons.injEq]
          simp

theorem takeWhile_toDigits (n : Nat) :
    (Nat.toDigits 10 n).takeWhile isAsciiDigit = Nat.toDigits 10 n ∧
      (Nat.toDigits 10 n).dropWhile isAsciiDigit = [] := by
  have hall := List.all_eq_true.mp (all_toDigits n)
  exact ⟨List.takeWhile_eq_self_iff.mpr hall, List.dropWhile_eq_nil_iff.mpr hall⟩

theorem parseNumber_toDigits (n : Nat) : parseNumber (Nat.toDigits 10 n) = some (n : Rat) := by
  obtain ⟨htake, hdrop⟩ := takeWhile_toDigits n
  have hne : Nat.toDigits 10 n ≠ [] := Nat.toDigits_ne_nil
  simp [parseNumber, htake, hdrop, hne, parseExponent, digitsValue_toDigits]

theorem not_word_toDigits (n : Nat) (word : Text) (h : 'n' ∈ toAsciiLowercase word) :
    eqIgnoreAsciiCase (Nat.toDigits 10 n) word = false := by
  rw [Bool.eq_false_iff]
  intro heq
  have hlower : toAsciiLowercase (Nat.toDigits 10 n) = toAsciiLowercase word := eq_of_beq heq
  rw [← hlower] at h
  obtain ⟨d, hd, hn⟩ := List.mem_map.mp h
  have hdigit := isDigit_of_mem_toDigits hd
  have hupper : ¬(d.val ≥ 'A'.val ∧ d.val ≤ 'Z'.val) := by
    intro hup
    simp only [Char.isDigit, Bool.and_eq_true, decide_eq_true_eq] at hdigit
    have hle := Nat.le_trans (UInt32.le_iff_toNat_le.mp hup.1) (UInt32.le_iff_toNat_le.mp hdigit.2)
    exact absurd hle (by decide)
  have hsame : d.toLower = d := dif_neg hupper
  rw [← hsame, hn] at hdigit
  cases hdigit

/-- What is read after the sign. -/
theorem parseUnsigned_toDigits (negative : Bool) (n : Nat) :
    (if eqIgnoreAsciiCase (Nat.toDigits 10 n) "nan".toList then some F64.nan
      else if eqIgnoreAsciiCase (Nat.toDigits 10 n) "inf".toList ||
        eqIgnoreAsciiCase (Nat.toDigits 10 n) "infinity".toList then some (.inf negative)
      else (parseNumber (Nat.toDigits 10 n)).map fun q => .ofRat (if negative then -q else q)) =
      some (.ofRat (if negative then -(n : Rat) else n)) := by
  have hnan := not_word_toDigits n "nan".toList (by decide)
  have hinf := not_word_toDigits n "inf".toList (by decide)
  have hinfinity := not_word_toDigits n "infinity".toList (by decide)
  rw [hnan, hinf, hinfinity, parseNumber_toDigits]
  rfl

/-- An integer's text is read as the double next to it. -/
theorem parseF64_decimalInt (n : Int) : parseF64 (decimalInt n) = some (.ofRat n) := by
  cases n with
  | ofNat n =>
    have hsign : ∀ c : Char, c.isDigit = false → ∀ rest, decimalInt (.ofNat n) ≠ c :: rest :=
      fun c hc rest => toDigits_ne_cons hc n rest
    unfold parseF64
    split
    next negative rest h =>
      split at h
      next rest' heq => exact absurd heq (hsign '-' (by decide) rest')
      next rest' heq => exact absurd heq (hsign '+' (by decide) rest')
      next =>
        cases h
        exact parseUnsigned_toDigits false n
  | negSucc n =>
    refine (parseUnsigned_toDigits true (n + 1)).trans ?_
    rw [Int.negSucc_eq]
    norm_num

theorem parseF64_boolText (b : Bool) : parseF64 (boolText b) = none := by
  cases b <;> rfl

theorem cmp_integer (n : Int) (query : Text) :
    cmp (some (decimalInt n)) query = cmpFieldToQuery (.integer n) query := by
  simp only [cmp, cmpFieldToQuery, parseF64_decimalInt]
  cases parseF64 query <;> rfl

theorem cmp_bool (b : Bool) (query : Text) :
    cmp (some (boolText b)) query = cmpFieldToQuery (.bool b) query := by
  simp only [cmp, cmpFieldToQuery, parseF64_boolText]

theorem partialCmp_self {a : F64} (h : a ≠ .nan) : a.partialCmp a = some .eq := by
  cases a with
  | nan => exact absurd rfl h
  | inf negative => simp [F64.partialCmp]
  | finite value => simp [F64.partialCmp]

namespace MemoryFilter

variable {s query : Text} {op : CompareOp}

theorem saysSame_iff : SaysSame op s query ↔
    op.holds (compareText s query) = (cmp (some s) query).any op.holds := by
  unfold SaysSame cmp
  cases hs : parseF64 s with
  | none => simp [hs]
  | some a =>
    cases hquery : parseF64 query with
    | none => simp [hs]
    | some b => simp [hs]

theorem sameNumber_iff : SameNumber s query ↔
    (∃ a, parseF64 s = some a) ∧ (∃ b, parseF64 query = some b) ∧ cmp (some s) query = some .eq := by
  unfold SameNumber cmp
  cases hs : parseF64 s with
  | none => simp
  | some a =>
    cases hquery : parseF64 query with
    | none => simp
    | some b => simp [hs]

/-- Equality of texts is one of the orders of texts. -/
theorem holds_eq (s query : Text) : (s == query) = CompareOp.eq.holds (compareText s query) := by
  rw [Bool.eq_iff_iff, beq_iff_eq, ← compareText_eq_eq]
  cases compareText s query <;> decide

theorem holds_ne (s query : Text) : (s != query) = CompareOp.ne.holds (compareText s query) := by
  rw [bne, holds_eq]
  cases compareText s query <;> rfl

theorem decimalInt_ne_nil (n : Int) : decimalInt n ≠ [] := by
  cases n with
  | ofNat n => exact Nat.toDigits_ne_nil
  | negSucc n => exact List.cons_ne_nil _ _

theorem boolText_ne_nil (b : Bool) : boolText b ≠ [] := by
  cases b <;> exact List.cons_ne_nil _ _

/-- How `eq` and `ne` compare the field with the query: as texts. -/
theorem keeps_eq_ne {entity : SerialEntity} {field text : Text}
    (htext : getFieldStr entity field = some text) (hop : op = .eq ∨ op = .ne) :
    (compare op field query).keeps entity = op.holds (compareText text query) := by
  rcases hop with rfl | rfl
  · rw [keeps, htext, ← holds_eq]
    rfl
  · rw [keeps, htext, ← holds_ne]
    rfl

/-- How the four orders compare the field with the query. -/
theorem keeps_order (entity : SerialEntity) (field : Text) (hop : ¬(op = .eq ∨ op = .ne)) :
    (compare op field query).keeps entity =
      ((fieldValue entity field).bind (cmpFieldToQuery · query)).any op.holds := by
  cases op with
  | eq => exact absurd (.inl rfl) hop
  | ne => exact absurd (.inr rfl) hop
  | gt => rfl
  | lt => rfl
  | gte => rfl
  | lte => rfl

theorem compare_iff (entity : SerialEntity) (op : CompareOp) (field query : Text) :
    (compare op field query).keeps entity =
      (Spec.compare op field query).matches (getFieldStr entity) ↔
      (compare op field query).ReadsAlike (rawFieldValue entity field) := by
  have habsent (hnone : fieldValue entity field = none) :
      (compare op field query).keeps entity =
        (Spec.compare op field query).matches (getFieldStr entity) := by
    have htext : getFieldStr entity field = none := by rw [getFieldStr, hnone, Option.bind_none]
    rw [Spec.matches, htext]
    cases op <;> simp [keeps, htext, hnone, cmp]
  have hpresent {value : FieldValue} {text : Text} (hvalue : fieldValue entity field = some value)
      (htext : getFieldStr entity field = some text)
      (hcmp : cmp (some text) query = cmpFieldToQuery value query) :
      (compare op field query).keeps entity =
        (Spec.compare op field query).matches (getFieldStr entity) ↔
        (op = .eq ∨ op = .ne → SaysSame op text query) := by
    rw [Spec.matches, htext]
    by_cases hop : op = .eq ∨ op = .ne
    · rw [keeps_eq_ne htext hop, ← saysSame_iff]
      exact (imp_iff_right hop).symm
    · rw [keeps_order entity field hop, hvalue, Option.bind_some, hcmp]
      simp [hop]
  unfold ReadsAlike
  cases hraw : rawFieldValue entity field with
  | none => exact iff_of_true (habsent (by rw [fieldValue, hraw])) trivial
  | some value =>
    cases value with
    | string s =>
      have hvalue : fieldValue entity field = some (.string s) := by rw [fieldValue, hraw]
      have htext : getFieldStr entity field = some s := by rw [getFieldStr, hvalue]; rfl
      show _ ↔ SaysSame op s query
      rw [Spec.matches, htext, saysSame_iff]
      by_cases hop : op = .eq ∨ op = .ne
      · rw [keeps_eq_ne htext hop]
      · rw [keeps_order entity field hop, hvalue]
        rfl
    | integer n =>
      have hvalue : fieldValue entity field = some (.integer n) := by rw [fieldValue, hraw]
      exact hpresent hvalue (by rw [getFieldStr, hvalue]; rfl) (cmp_integer n query)
    | bool b =>
      have hvalue : fieldValue entity field = some (.bool b) := by rw [fieldValue, hraw]
      rw [hpresent hvalue (by rw [getFieldStr, hvalue]; rfl) (cmp_bool b query)]
      refine iff_of_true (fun _ a b' ha _ => ?_) trivial
      rw [parseF64_boolText] at ha
      cases ha
    | null => exact iff_of_true (habsent (by rw [fieldValue, hraw])) trivial

theorem any_holds_eq (o : Option Ordering) : o.any CompareOp.eq.holds = (o == some .eq) := by
  cases o with
  | none => rfl
  | some o => cases o <;> rfl

/-- A text is read as equal where it is the same number, or the same text and no number. -/
theorem cmp_eq_eq_iff : cmp (some s) query = some .eq ↔
    SameNumber s query ∨ s = query ∧ parseF64 s = none := by
  unfold SameNumber cmp
  cases hs : parseF64 s with
  | none => simp [hs, compareText_eq_eq]
  | some a =>
    cases hquery : parseF64 query with
    | none =>
      simp only [hs, compareText_eq_eq, Option.some.injEq, reduceCtorEq, and_false, false_and,
        exists_false, or_false, iff_false]
      rintro rfl
      rw [hs] at hquery
      cases hquery
    | some b => simp [hs]

theorem mem_iff_read (s : Text) (values : List Text) :
    (s ∈ values ↔ ∃ query ∈ values, cmp (some s) query = some .eq) ↔
      (s ∈ values → parseF64 s ≠ some .nan) ∧
        (s ∉ values → ∀ query ∈ values, ¬ SameNumber s query) := by
  by_cases hmem : s ∈ values
  · simp only [hmem, true_iff, forall_const, not_true_eq_false, false_imp_iff, and_true]
    constructor
    · rintro ⟨query, -, hread⟩ hnan
      rcases cmp_eq_eq_iff.1 hread with ⟨a, b, ha, -, hcmp⟩ | ⟨-, hnone⟩
      · rw [hnan] at ha
        cases ha
        cases hcmp
      · rw [hnan] at hnone
        cases hnone
    · intro hnan
      refine ⟨s, hmem, cmp_eq_eq_iff.2 ?_⟩
      cases hs : parseF64 s with
      | none => exact .inr ⟨rfl, rfl⟩
      | some a => exact .inl ⟨a, a, hs, hs, partialCmp_self fun ha => hnan (by rw [hs, ha])⟩
  · simp only [hmem, false_iff, not_exists, not_and, not_false_eq_true, forall_const,
      false_imp_iff, true_and]
    constructor
    · intro hread query hquery hsame
      exact hread query hquery (cmp_eq_eq_iff.2 (.inl hsame))
    · intro hsame query hquery hread
      rcases cmp_eq_eq_iff.1 hread with hnumber | ⟨rfl, -⟩
      · exact hsame query hquery hnumber
      · exact hmem hquery

theorem in_iff (entity : SerialEntity) (field : Text) (values : List Text) :
    (in_ field values).keeps entity = (Spec.in_ field values).matches (getFieldStr entity) ↔
      (in_ field values).ReadsAlike (rawFieldValue entity field) := by
  have habsent (hnone : fieldValue entity field = none) :
      (in_ field values).keeps entity = (Spec.in_ field values).matches (getFieldStr entity) := by
    have htext : getFieldStr entity field = none := by rw [getFieldStr, hnone, Option.bind_none]
    rw [Spec.matches, htext, keeps, hnone]
    simp [cmp]
  have hpresent {value : FieldValue} {text : Text} (hvalue : fieldValue entity field = some value)
      (htext : getFieldStr entity field = some text)
      (hcmp : ∀ query, cmp (some text) query = cmpFieldToQuery value query) :
      (in_ field values).keeps entity = (Spec.in_ field values).matches (getFieldStr entity) := by
    rw [Spec.matches, htext, keeps, hvalue]
    simp only [Option.any_some, hcmp, any_holds_eq]
  unfold ReadsAlike
  cases hraw : rawFieldValue entity field with
  | none => exact iff_of_true (habsent (by rw [fieldValue, hraw])) trivial
  | some value =>
    cases value with
    | string s =>
      have hvalue : fieldValue entity field = some (.string s) := by rw [fieldValue, hraw]
      have htext : getFieldStr entity field = some s := by rw [getFieldStr, hvalue]; rfl
      have hmem : (in_ field values).keeps entity = true ↔ s ∈ values := by
        rw [keeps, hvalue]
        simp [cmpFieldToQuery, compareText_eq_eq]
      have hread : (Spec.in_ field values).matches (getFieldStr entity) = true ↔
          ∃ query ∈ values, cmp (some s) query = some .eq := by
        rw [Spec.matches, htext]
        simp [any_holds_eq]
      show _ ↔ _ ∧ _
      rw [Bool.eq_iff_iff, hmem, hread]
      exact mem_iff_read s values
    | integer n =>
      have hvalue : fieldValue entity field = some (.integer n) := by rw [fieldValue, hraw]
      exact iff_of_true (hpresent hvalue (by rw [getFieldStr, hvalue]; rfl) (cmp_integer n)) trivial
    | bool b =>
      have hvalue : fieldValue entity field = some (.bool b) := by rw [fieldValue, hraw]
      exact iff_of_true (hpresent hvalue (by rw [getFieldStr, hvalue]; rfl) (cmp_bool b)) trivial
    | null => exact iff_of_true (habsent (by rw [fieldValue, hraw])) trivial

theorem and_eq_and_iff (a b c d : Bool) : (a && b) = (c && d) ↔
    (a = c ∧ b = d) ∨ ((a = false ∨ b = false) ∧ (c = false ∨ d = false)) := by
  revert a b c d
  decide

theorem between_iff (entity : SerialEntity) (field lo hi : Text) :
    (between field lo hi).keeps entity =
      (Spec.between field lo hi).matches (getFieldStr entity) ↔
      (between field lo hi).ReadsAlike (rawFieldValue entity field) := by
  have habsent (hnone : fieldValue entity field = none) :
      (between field lo hi).keeps entity =
        (Spec.between field lo hi).matches (getFieldStr entity) := by
    have htext : getFieldStr entity field = none := by rw [getFieldStr, hnone, Option.bind_none]
    rw [Spec.matches, htext, keeps, hnone]
    rfl
  have hpresent {value : FieldValue} {text : Text} (hvalue : fieldValue entity field = some value)
      (htext : getFieldStr entity field = some text)
      (hcmp : ∀ query, cmp (some text) query = cmpFieldToQuery value query) :
      (between field lo hi).keeps entity =
        (Spec.between field lo hi).matches (getFieldStr entity) := by
    rw [Spec.matches, htext, keeps, hvalue, hcmp, hcmp]
    rfl
  unfold ReadsAlike
  cases hraw : rawFieldValue entity field with
  | none => exact iff_of_true (habsent (by rw [fieldValue, hraw])) trivial
  | some value =>
    cases value with
    | string s =>
      have hvalue : fieldValue entity field = some (.string s) := by rw [fieldValue, hraw]
      have htext : getFieldStr entity field = some s := by rw [getFieldStr, hvalue]; rfl
      show _ ↔ SaysSame .gte s lo ∧ SaysSame .lte s hi ∨ OutsideBoth s lo hi
      rw [Spec.matches, htext, keeps, hvalue, saysSame_iff, saysSame_iff]
      show (CompareOp.gte.holds (compareText s lo) && CompareOp.lte.holds (compareText s hi)) = _ ↔ _
      have hlo : compareText s lo = .lt ↔ CompareOp.gte.holds (compareText s lo) = false := by
        cases compareText s lo <;> decide
      have hhi : compareText s hi = .gt ↔ CompareOp.lte.holds (compareText s hi) = false := by
        cases compareText s hi <;> decide
      rw [OutsideBoth, hlo, hhi]
      exact and_eq_and_iff _ _ _ _
    | integer n =>
      have hvalue : fieldValue entity field = some (.integer n) := by rw [fieldValue, hraw]
      exact iff_of_true (hpresent hvalue (by rw [getFieldStr, hvalue]; rfl) (cmp_integer n)) trivial
    | bool b =>
      have hvalue : fieldValue entity field = some (.bool b) := by rw [fieldValue, hraw]
      exact iff_of_true (hpresent hvalue (by rw [getFieldStr, hvalue]; rfl) (cmp_bool b)) trivial
    | null => exact iff_of_true (habsent (by rw [fieldValue, hraw])) trivial

/-- A fluent filter keeps what its leaf keeps if and only if both read the field alike. -/
theorem fluent_iff (entity : SerialEntity) (filter : MemoryFilter) :
    (({} : MemoryQueryBuilder).call filter.fluent).matchesFilters entity =
      (({} : MemoryQueryBuilder).call (.spec filter.spec)).matchesFilters entity ↔
      filter.ReadsAlike (rawFieldValue entity filter.field) := by
  have hfluent : (({} : MemoryQueryBuilder).call filter.fluent).matchesFilters entity =
      filter.keeps entity := by
    cases filter <;> simp [MemoryQueryBuilder.call, fluent, MemoryQueryBuilder.matchesFilters]
  have hspec : (({} : MemoryQueryBuilder).call (.spec filter.spec)).matchesFilters entity =
      filter.spec.matches (getFieldStr entity) := by
    simp [MemoryQueryBuilder.call, MemoryQueryBuilder.matchesFilters]
  rw [hfluent, hspec]
  cases filter with
  | compare op field query => exact compare_iff entity op field query
  | like field pattern => simp [keeps, spec, Spec.matches, ReadsAlike]
  | in_ field values => exact in_iff entity field values
  | between field lo hi => exact between_iff entity field lo hi
  | isNull field =>
    simp only [keeps, spec, Spec.matches, ReadsAlike, MemoryFilter.field, getFieldStr, fieldValue,
      rawFieldValue]
    cases hvalue : entity field with
    | none => simp
    | some value =>
      cases value with
      | string s => simp [FieldValue.isNull, FieldValue.text]
      | integer n => simp [FieldValue.isNull, FieldValue.text, decimalInt_ne_nil]
      | bool b => simp [FieldValue.isNull, FieldValue.text, boolText_ne_nil]
      | null => simp [FieldValue.isNull]
  | isNotNull field =>
    simp only [keeps, spec, Spec.matches, ReadsAlike, MemoryFilter.field, getFieldStr, fieldValue,
      rawFieldValue]
    cases hvalue : entity field with
    | none => simp
    | some value =>
      cases value with
      | string s => simp [FieldValue.isNull, FieldValue.text]
      | integer n => simp [FieldValue.isNull, FieldValue.text, decimalInt_ne_nil]
      | bool b => simp [FieldValue.isNull, FieldValue.text, boolText_ne_nil]
      | null => simp [FieldValue.isNull]

/-- A text with a number in it equals the same number spelled otherwise in the leaf alone. -/
theorem not_fluent : ¬ ∀ (entity : SerialEntity) (filter : MemoryFilter),
    (({} : MemoryQueryBuilder).call filter.fluent).matchesFilters entity =
      (({} : MemoryQueryBuilder).call (.spec filter.spec)).matchesFilters entity := by
  intro h
  have hage := h (fun _ => some (.integer 5)) (.compare .eq "age".toList "5.0".toList)
  exact absurd hage (by decide +kernel)

end MemoryFilter

end Kernway
