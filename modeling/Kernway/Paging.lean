import Kernway.MemoryQuery
import Kernway.Results
import Kernway.SqliteBuilder
import Mathlib.Data.List.Sort

namespace Kernway

namespace Page

variable {T : Type}

/-- `is_last`; `none` where `page + 1` overflows. -/
def isLast (page : Page T) : Option Bool :=
  if page.page.toNat + 1 < 2 ^ 64 then some (decide (page.totalPages ≤ page.page + 1)) else none

def hasNext (page : Page T) : Option Bool := page.isLast.map (!·)

end Page

/-- A character in a JSON string. -/
def jsonChar (c : Char) : Text :=
  if c = '"' then ['\\', '"']
  else if c = '\\' then ['\\', '\\']
  else if c = '\x08' then ['\\', 'b']
  else if c = '\x0c' then ['\\', 'f']
  else if c = '\n' then ['\\', 'n']
  else if c = '\r' then ['\\', 'r']
  else if c = '\t' then ['\\', 't']
  else if c.toNat < 32 then
    "\\u00".toList ++ [Nat.digitChar (c.toNat / 16), Nat.digitChar (c.toNat % 16)]
  else [c]

/-- `Value::to_string`. -/
def FieldValue.json : FieldValue → Text
  | string s => ['"'] ++ s.flatMap jsonChar ++ ['"']
  | integer n => decimalInt n
  | bool b => boolText b
  | null => "null".toList

def compareFieldValues : FieldValue → FieldValue → Ordering
  | .integer a, .integer b => ((F64.ofRat a).partialCmp (.ofRat b)).getD .eq
  | .string a, .string b => compareText a b
  | .bool a, .bool b => compare a b
  | a, b => compareText a.json b.json

def compareEntities (left right : SerialEntity) (order : SortDir × Text) : Ordering :=
  let ordering := match fieldValue left order.2, fieldValue right order.2 with
    | some l, some r => compareFieldValues l r
    | none, some _ => .lt
    | some _, none => .gt
    | none, none => .eq
  match order.1 with
  | .asc => ordering
  | .desc => ordering.swap

namespace MemoryQueryBuilder

variable {T : Type} (serialize : T → SerialEntity)

/-- The rows that match, of those that the map yields, in the builder's order. -/
def collectItems (b : MemoryQueryBuilder) (values : List T) : List T :=
  let items := values.filter fun entity => b.matchesFilters (serialize entity)
  match b.order with
  | some order => items.mergeSort fun left right =>
    compareEntities (serialize left) (serialize right) order != .gt
  | none => items

def applyWindow (b : MemoryQueryBuilder) (items : List T) : List T :=
  match b.limit with
  | some limit => (items.drop b.offset.toNat).take limit.toNat
  | none => items.drop b.offset.toNat

def fetchAll (b : MemoryQueryBuilder) (values : List T) : Except OrmError (List T) :=
  .ok (b.applyWindow (b.collectItems serialize values))

def fetchPage (b : MemoryQueryBuilder) (values : List T) (page size : UInt64) :
    Except OrmError (Page T) :=
  let items := b.collectItems serialize values
  let total := UInt64.ofNat items.length
  if size = 0 then .ok (Page.new [] total page size)
  else
    let start := SqliteQueryBuilder.saturatingMul page size
    .ok (Page.new ((items.drop start.toNat).take size.toNat) total page size)

end MemoryQueryBuilder

/-- How many pages a list has. -/
def pageCount {T : Type} (all : List T) (size : UInt64) : Nat :=
  (all.length + size.toNat - 1) / size.toNat

/-- A page number asked for, against the whole list: the pages up to the last make up the list; the
page is answered with the right total, it is empty from the last on, and it has a next one exactly
before the last. -/
structure PagedRight {T : Type} (fetchAll : Except OrmError (List T))
    (fetchPage : UInt64 → Except OrmError (Page T)) (size number : UInt64) : Prop where
  concatenated : ∃ all pages, fetchAll = .ok all ∧
    ((List.range (pageCount all size)).mapM fun n => fetchPage (.ofNat n)) = .ok pages ∧
      pages.flatMap Page.items = all
  answered : ∃ all page, fetchAll = .ok all ∧ fetchPage number = .ok page ∧
    page.total.toNat = all.length ∧ page.totalPages.toNat = pageCount all size ∧
    (page.totalPages ≤ number → page.items = []) ∧
      page.hasNext = some (decide (number.toNat + 1 < page.totalPages.toNat))

/-- The order compares any two of the rows, and no two of them as equal. -/
structure TotalOrder {T : Type} (cmp : T → T → Ordering) (rows : List T) : Prop where
  trans : ∀ a ∈ rows, ∀ b ∈ rows, ∀ c ∈ rows, cmp a b ≠ .gt → cmp b c ≠ .gt → cmp a c ≠ .gt
  total : ∀ a ∈ rows, ∀ b ∈ rows, cmp a b ≠ .gt ∨ cmp b a ≠ .gt
  antisymm : ∀ a ∈ rows, ∀ b ∈ rows, cmp a b ≠ .gt → cmp b a ≠ .gt → a = b

theorem flatMap_windows {T : Type} (all : List T) (size k : Nat) :
    ((List.range k).flatMap fun n => (all.drop (n * size)).take size) = all.take (k * size) := by
  induction k with
  | zero => simp
  | succ k ih =>
    rw [List.range_succ, List.flatMap_append, ih, List.flatMap_singleton, Nat.succ_mul,
      List.take_add]

/-- The page that a window of the whole list gives. -/
def windowPage {T : Type} (all : List T) (size number : UInt64) : Page T :=
  .new ((all.drop (SqliteQueryBuilder.saturatingMul number size).toNat).take size.toNat)
    (.ofNat all.length) number size

theorem saturatingMul_toNat (a b : UInt64) :
    (SqliteQueryBuilder.saturatingMul a b).toNat = min (a.toNat * b.toNat) (2 ^ 64 - 1) := by
  unfold SqliteQueryBuilder.saturatingMul
  split
  next hlt =>
    rw [UInt64.toNat_mul, Nat.mod_eq_of_lt hlt]
    omega
  next hge =>
    have hmax : (UInt64.ofNat (2 ^ 64 - 1)).toNat = 2 ^ 64 - 1 := by decide
    omega

section

variable {T : Type} {all : List T} {size number : UInt64}

theorem toNat_ofNat_length (hsmall : all.length < 2 ^ 63) :
    (UInt64.ofNat all.length).toNat = all.length := by
  rw [UInt64.toNat_ofNat']
  omega

theorem ceil_div (len size : Nat) (hsize : 1 ≤ size) : (len + size - 1) / size =
    if len % size = 0 then len / size else len / size + 1 := by
  have hsplit := Nat.div_add_mod len size
  have hlt := Nat.mod_lt len hsize
  have hmul := Nat.add_one_mul (len / size) size
  have hmul' := Nat.add_one_mul (len / size + 1) size
  have hcomm := Nat.mul_comm size (len / size)
  split
  next hzero =>
    apply Nat.div_eq_of_lt_le
    · omega
    · omega
  next hpos =>
    apply Nat.div_eq_of_lt_le
    · omega
    · omega

theorem totalPages_windowPage (number : UInt64) (hsmall : all.length < 2 ^ 63)
    (hsize : 1 ≤ size.toNat) :
    (windowPage all size number).totalPages.toNat = pageCount all size := by
  have hlen := toNat_ofNat_length hsmall
  have hne : size ≠ 0 := by
    rintro rfl
    simp at hsize
  have hmod : (UInt64.ofNat all.length % size).toNat = all.length % size.toNat := by
    rw [UInt64.toNat_mod, hlen]
  have hdiv : (UInt64.ofNat all.length / size).toNat = all.length / size.toNat := by
    rw [UInt64.toNat_div, hlen]
  have hzero : UInt64.ofNat all.length % size = 0 ↔ all.length % size.toNat = 0 := by
    rw [← UInt64.toNat_inj, hmod]
    rfl
  have hle := Nat.div_le_self all.length size.toNat
  unfold windowPage Page.new pageCount
  dsimp only
  rw [if_neg hne, ceil_div _ _ hsize]
  by_cases hrem : all.length % size.toNat = 0
  · rw [if_pos hrem, if_pos (hzero.mpr hrem), hdiv]
  · have hone : (1 : UInt64).toNat = 1 := rfl
    rw [if_neg hrem, if_neg (mt hzero.mp hrem), UInt64.toNat_add, hdiv, hone]
    omega

/-- The pages hold all rows, and one page less does not. -/
theorem pageCount_spec (all : List T) (hsize : 1 ≤ size.toNat) :
    all.length ≤ pageCount all size * size.toNat ∧
      ∀ n < pageCount all size, n * size.toNat < all.length := by
  have hceil := ceil_div all.length size.toNat hsize
  have hsplit := Nat.div_add_mod all.length size.toNat
  have hlt := Nat.mod_lt all.length hsize
  have hcomm := Nat.mul_comm size.toNat (all.length / size.toNat)
  have hmul := Nat.add_one_mul (all.length / size.toNat) size.toNat
  rw [pageCount, hceil]
  split
  next hzero =>
    refine ⟨by omega, fun n hn => ?_⟩
    have hmono := Nat.mul_le_mul_right size.toNat (Nat.succ_le_of_lt hn)
    rw [Nat.succ_mul] at hmono
    omega
  next hpos =>
    refine ⟨by omega, fun n hn => ?_⟩
    have hmono := Nat.mul_le_mul_right size.toNat (Nat.le_of_lt_succ hn)
    omega

theorem saturatingMul_ofNat {n : Nat} (hsmall : all.length < 2 ^ 63) (hsize : 1 ≤ size.toNat)
    (hn : n < pageCount all size) :
    (SqliteQueryBuilder.saturatingMul (.ofNat n) size).toNat = n * size.toNat := by
  have hstart := (pageCount_spec all hsize).2 n hn
  have hle := Nat.le_mul_of_pos_right n hsize
  have hnumber : (UInt64.ofNat n).toNat = n := by
    rw [UInt64.toNat_ofNat']
    exact Nat.mod_eq_of_lt (by omega)
  have hmul := saturatingMul_toNat (.ofNat n) size
  rw [hnumber] at hmul
  omega

theorem items_windowPage {n : Nat} (hsmall : all.length < 2 ^ 63) (hsize : 1 ≤ size.toNat)
    (hn : n < pageCount all size) :
    (windowPage all size (.ofNat n)).items = (all.drop (n * size.toNat)).take size.toNat := by
  show (all.drop _).take size.toNat = _
  rw [saturatingMul_ofNat hsmall hsize hn]

/-- A window that begins at or past the last page is empty. -/
theorem items_windowPage_past (hsmall : all.length < 2 ^ 63) (hsize : 1 ≤ size.toNat)
    (hpast : pageCount all size ≤ number.toNat) : (windowPage all size number).items = [] := by
  have hcover := (pageCount_spec all hsize).1
  have hmono := Nat.mul_le_mul_right size.toNat hpast
  have hstart := saturatingMul_toNat number size
  show (all.drop _).take size.toNat = []
  rw [List.drop_of_length_le (by omega), List.take_nil]

/-- Windows of one list are right where the page after them can be counted. -/
theorem answered_iff {fetchAll : Except OrmError (List T)}
    {fetchPage : UInt64 → Except OrmError (Page T)} (hsmall : all.length < 2 ^ 63)
    (hsize : 1 ≤ size.toNat) (hall : fetchAll = .ok all)
    (hpages : ∀ n : Nat, n < pageCount all size →
      fetchPage (.ofNat n) = .ok (windowPage all size (.ofNat n)))
    (hpage : fetchPage number = .ok (windowPage all size number)) :
    PagedRight fetchAll fetchPage size number ↔ number.toNat + 1 < 2 ^ 64 := by
  have hcount := totalPages_windowPage number hsmall hsize
  constructor
  · rintro ⟨-, all', page, hall', hpage', -, -, -, hnext⟩
    obtain rfl := Except.ok.inj (hpage.symm.trans hpage')
    by_contra hover
    have hnone : (windowPage all size number).isLast = none := if_neg hover
    rw [Page.hasNext, hnone] at hnext
    cases hnext
  · intro hlt
    refine ⟨⟨all, _, hall, mapM_ok fun n hn => hpages n (List.mem_range.mp hn), ?_⟩,
      ⟨all, _, hall, hpage, toNat_ofNat_length hsmall, hcount, ?_, ?_⟩⟩
    · have hwindows := flatMap_windows all size.toNat (pageCount all size)
      rw [List.take_of_length_le (pageCount_spec all hsize).1] at hwindows
      rw [List.flatMap_map]
      apply Eq.trans _ hwindows
      exact List.flatMap_congr fun n hn => items_windowPage hsmall hsize (List.mem_range.mp hn)
    · intro hpast
      apply items_windowPage_past hsmall hsize
      rw [← hcount]
      exact UInt64.le_iff_toNat_le.mp hpast
    · have hlast : (windowPage all size number).isLast =
          some (decide ((windowPage all size number).totalPages ≤ number + 1)) := if_pos hlt
      have hone : (number + 1).toNat = number.toNat + 1 := by
        rw [UInt64.toNat_add]
        exact Nat.mod_eq_of_lt hlt
      rw [Page.hasNext, hlast, Option.map_some, Option.some.injEq, Bool.eq_iff_iff]
      simp only [Bool.not_eq_true', decide_eq_false_iff_not, decide_eq_true_eq]
      rw [UInt64.le_iff_toNat_le, hone]
      omega

end

/-- The rows of a table in memory, in some order. -/
structure MemoryTable (T : Type) where
  rows : List T
  small : rows.length < 2 ^ 63

/-- The builder sorts by a field, the rows that it keeps have different places, and it has no window
of its own. -/
structure MemoryQueryBuilder.Ordered {T : Type} (b : MemoryQueryBuilder)
    (serialize : T → SerialEntity) (rows : List T) : Prop where
  order : ∃ order, b.order = some order ∧
    TotalOrder (fun left right => compareEntities (serialize left) (serialize right) order)
      (rows.filter fun entity => b.matchesFilters (serialize entity))
  limit : b.limit = none
  offset : b.offset = 0

/-- A merge sort sorts by a comparison that is a preorder on the list's own elements. -/
theorem pairwise_mergeSort_of {T : Type} {le : T → T → Bool} {xs : List T}
    (htrans : ∀ a ∈ xs, ∀ b ∈ xs, ∀ c ∈ xs, le a b → le b c → le a c)
    (htotal : ∀ a ∈ xs, ∀ b ∈ xs, le a b ∨ le b a) : (xs.mergeSort le).Pairwise (le · ·) := by
  have hsorted : (xs.attach.mergeSort fun a b => le a.1 b.1).Pairwise
      fun a b : { x // x ∈ xs } => le a.1 b.1 := by
    apply List.pairwise_mergeSort
    · intro a b c
      exact htrans a a.2 b b.2 c c.2
    · intro a b
      simpa using htotal a a.2 b b.2
  have hmap : (xs.attach.mergeSort fun a b => le a.1 b.1).map Subtype.val =
      (xs.attach.map Subtype.val).mergeSort le := List.map_mergeSort fun _ _ _ _ => rfl
  rw [List.attach_map_subtype_val] at hmap
  rw [← hmap]
  exact List.pairwise_map.mpr hsorted

/-- The rows come out in the same order, in whatever order the map yields them. -/
theorem collectItems_perm {T : Type} {serialize : T → SerialEntity} {b : MemoryQueryBuilder}
    {rows values : List T} (hordered : b.Ordered serialize rows) (hperm : values.Perm rows) :
    b.collectItems serialize values = b.collectItems serialize rows := by
  obtain ⟨order, horder, htrans, htotal, hantisymm⟩ := hordered.order
  have hfilter := hperm.filter fun entity => b.matchesFilters (serialize entity)
  unfold MemoryQueryBuilder.collectItems
  rw [horder]
  have hsorted : ∀ items : List T,
      items.Perm (rows.filter fun entity => b.matchesFilters (serialize entity)) →
      (items.mergeSort fun left right =>
        compareEntities (serialize left) (serialize right) order != .gt).Pairwise
          fun left right => compareEntities (serialize left) (serialize right) order != .gt := by
    intro items hitems
    apply pairwise_mergeSort_of
    · intro a ha c hc d hd hac hcd
      simp only [bne_iff_ne] at hac hcd ⊢
      exact htrans a (hitems.mem_iff.mp ha) c (hitems.mem_iff.mp hc) d (hitems.mem_iff.mp hd) hac
        hcd
    · intro a ha c hc
      simp only [bne_iff_ne]
      exact htotal a (hitems.mem_iff.mp ha) c (hitems.mem_iff.mp hc)
  refine List.Perm.eq_of_pairwise ?_ (hsorted _ hfilter) (hsorted _ (List.Perm.refl _))
    ((List.mergeSort_perm _ _).trans (hfilter.trans (List.mergeSort_perm _ _).symm))
  intro a c ha hc hac hca
  have ha := hfilter.mem_iff.mp (List.mem_mergeSort.mp ha)
  simp only [bne_iff_ne] at hac hca
  exact hantisymm a ha c (List.mem_mergeSort.mp hc) hac hca

theorem length_collectItems {T : Type} (serialize : T → SerialEntity) (b : MemoryQueryBuilder)
    (table : MemoryTable T) : (b.collectItems serialize table.rows).length < 2 ^ 63 := by
  have hlen := List.length_filter_le (fun entity => b.matchesFilters (serialize entity)) table.rows
  have hsmall := table.small
  unfold MemoryQueryBuilder.collectItems
  dsimp only
  split
  · rw [List.length_mergeSort]
    omega
  · omega

theorem memory_paged_iff {T : Type} {serialize : T → SerialEntity} {b : MemoryQueryBuilder}
    {table : MemoryTable T} (hordered : b.Ordered serialize table.rows) {values : List T}
    {scan : UInt64 → List T} (hvalues : values.Perm table.rows)
    (hscan : ∀ n, (scan n).Perm table.rows) {size : UInt64} (hsize : 1 ≤ size.toNat)
    (number : UInt64) :
    PagedRight (b.fetchAll serialize values) (fun n => b.fetchPage serialize (scan n) n size) size
      number ↔ number.toNat + 1 < 2 ^ 64 := by
  have hne : size ≠ 0 := by
    rintro rfl
    simp at hsize
  have hpage : ∀ n, b.fetchPage serialize (scan n) n size =
      .ok (windowPage (b.collectItems serialize table.rows) size n) := by
    intro n
    unfold MemoryQueryBuilder.fetchPage
    dsimp only
    rw [if_neg hne, collectItems_perm hordered (hscan n)]
    rfl
  have hall : b.fetchAll serialize values = .ok (b.collectItems serialize table.rows) := by
    unfold MemoryQueryBuilder.fetchAll MemoryQueryBuilder.applyWindow
    rw [collectItems_perm hordered hvalues, hordered.limit, hordered.offset]
    rfl
  exact answered_iff (length_collectItems serialize b table) hsize hall (fun n _ => hpage _)
    (hpage number)

/-- What SQLite answers to a builder's statements, where the rows that match stand in the order
`all`: their count, all of them, and a window of them unless an end of it is no 64-bit integer. -/
structure SqliteConnection.Serves {T : Type} (conn : SqliteConnection T) (entity : EntityTable)
    (b : SqliteQueryBuilder) (all : List T) : Prop where
  whole : b.lim = none ∧ b.off = 0
  unlocked : conn.poisoned = false
  small : all.length < 2 ^ 63
  count : conn.count (b.buildCountQuery entity).1 (b.buildCountQuery entity).2 =
    .ok (.ofNat all.length)
  select : conn.rows (b.buildSelectQuery entity).1 (b.buildSelectQuery entity).2 = .ok all
  window : ∀ size offset : UInt64, size.toNat < 2 ^ 63 → offset.toNat < 2 ^ 63 →
    conn.rows ({ b with off := offset, lim := some size }.buildSelectQuery entity).1
      ({ b with off := offset, lim := some size }.buildSelectQuery entity).2 =
        .ok ((all.drop offset.toNat).take size.toNat)
  mismatch : ∀ size offset : UInt64, ¬(size.toNat < 2 ^ 63 ∧ offset.toNat < 2 ^ 63) →
    ∃ e, conn.rows ({ b with off := offset, lim := some size }.buildSelectQuery entity).1
      ({ b with off := offset, lim := some size }.buildSelectQuery entity).2 = .error e

/-- The ends of the window are 64-bit integers. -/
def InI64 (size number : UInt64) : Prop :=
  size.toNat < 2 ^ 63 ∧ (SqliteQueryBuilder.saturatingMul number size).toNat < 2 ^ 63

theorem sqlite_paged_iff {T : Type} {conn : SqliteConnection T} {entity : EntityTable}
    {b : SqliteQueryBuilder} {all : List T} (hserves : conn.Serves entity b all)
    (herror : b.error = none) {size : UInt64} (hsize : 1 ≤ size.toNat) (number : UInt64) :
    PagedRight (SqliteQueryBuilder.fetchAll entity conn b).result
      (fun n => (SqliteQueryBuilder.fetchPage entity conn b n size).result) size number ↔
        number.toNat + 1 < 2 ^ 64 ∧ InI64 size number := by
  have hne : size ≠ 0 := by
    rintro rfl
    simp at hsize
  have hall : (SqliteQueryBuilder.fetchAll entity conn b).result = .ok all := by
    unfold SqliteQueryBuilder.fetchAll SqliteQueryBuilder.execute
    rw [herror, hserves.unlocked]
    exact hserves.select
  have hrun : ∀ n, (SqliteQueryBuilder.fetchPage entity conn b n size).result =
      (conn.rows (({ b with
          off := SqliteQueryBuilder.saturatingMul n size, lim := some size }).buildSelectQuery entity).1
        (({ b with
          off := SqliteQueryBuilder.saturatingMul n size, lim := some size }).buildSelectQuery
            entity).2).map fun items => Page.new items (.ofNat all.length) n size := by
    intro n
    unfold SqliteQueryBuilder.fetchPage SqliteQueryBuilder.fetchAll SqliteQueryBuilder.execute
    simp only [herror, hserves.unlocked, Bool.false_eq_true, ↓reduceIte, hserves.count, hne,
      Ran.bind, Ran.map]
    rfl
  have hpage : ∀ n, InI64 size n → (SqliteQueryBuilder.fetchPage entity conn b n size).result =
      .ok (windowPage all size n) := by
    intro n hn
    rw [hrun, hserves.window _ _ hn.1 hn.2]
    rfl
  have hwindows (hi64 : InI64 size number) : PagedRight
      (SqliteQueryBuilder.fetchAll entity conn b).result
      (fun n => (SqliteQueryBuilder.fetchPage entity conn b n size).result) size number ↔
        number.toNat + 1 < 2 ^ 64 := by
    refine answered_iff hserves.small hsize hall (fun n hn => hpage _ ⟨hi64.1, ?_⟩) (hpage _ hi64)
    have hsmall := hserves.small
    rw [saturatingMul_ofNat hsmall hsize hn]
    exact Nat.lt_trans ((pageCount_spec all hsize).2 n hn) hsmall
  constructor
  · intro hright
    have hi64 : InI64 size number := by
      by_contra hlarge
      obtain ⟨e, herr⟩ := hserves.mismatch _ _ hlarge
      obtain ⟨all', page, -, hok, -⟩ := hright.answered
      rw [hrun, herr] at hok
      cases hok
    exact ⟨(hwindows hi64).mp hright, hi64⟩
  · rintro ⟨hlt, hi64⟩
    exact (hwindows hi64).mpr hlt

/-- Paging is right in memory but for the last page number of all, and in SQLite where besides the
ends of the window are 64-bit integers. -/
theorem paged_iff {T : Type} {serialize : T → SerialEntity} {b : MemoryQueryBuilder}
    {table : MemoryTable T} (hordered : b.Ordered serialize table.rows) {values : List T}
    {scan : UInt64 → List T} (hvalues : values.Perm table.rows)
    (hscan : ∀ n, (scan n).Perm table.rows) {conn : SqliteConnection T} {entity : EntityTable}
    {q : SqliteQueryBuilder} {all : List T} (hserves : conn.Serves entity q all)
    (herror : q.error = none) {size : UInt64} (hsize : 1 ≤ size.toNat) (number : UInt64) :
    (PagedRight (b.fetchAll serialize values) (fun n => b.fetchPage serialize (scan n) n size) size
      number ↔ number.toNat + 1 < 2 ^ 64) ∧
    (PagedRight (SqliteQueryBuilder.fetchAll entity conn q).result
      (fun n => (SqliteQueryBuilder.fetchPage entity conn q n size).result) size number ↔
        number.toNat + 1 < 2 ^ 64 ∧ InI64 size number) :=
  ⟨memory_paged_iff hordered hvalues hscan hsize number,
    sqlite_paged_iff hserves herror hsize number⟩

/-- The number that a clause of the statement ends in, and what follows. -/
def clause (keyword s : Text) : Option (Nat × Text) :=
  (keyword.isPrefixOf? s).bind fun rest =>
    (parseUsize (rest.takeWhile isAsciiDigit)).map fun n => (n, rest.dropWhile isAsciiDigit)

/-- What SQLite does with a limit and an offset after the statement `select`. -/
def windowRows {T : Type} (all : List T) (select sql : Text) : Except OrmError (List T) :=
  match (select.isPrefixOf? sql).bind (clause " LIMIT ".toList) with
  | none => .ok all
  | some (size, rest) =>
    let offset := ((clause " OFFSET ".toList rest).map Prod.fst).getD 0
    if size < 2 ^ 63 ∧ offset < 2 ^ 63 then .ok ((all.drop offset).take size)
    else .error (.query "datatype mismatch".toList)

theorem clause_decimal (keyword : Text) (n : UInt64) {rest : Text}
    (hrest : ∀ c ∈ rest.head?, isAsciiDigit c = false) :
    clause keyword (keyword ++ decimal n ++ rest) = some (n.toNat, rest) := by
  have hdigits := List.all_eq_true.mp (all_toDigits n.toNat)
  have htake : (decimal n ++ rest).takeWhile isAsciiDigit = decimal n := by
    rw [decimal, List.takeWhile_append_of_pos hdigits]
    cases rest with
    | nil => simp
    | cons c rest => simp [hrest c rfl]
  have hdrop : (decimal n ++ rest).dropWhile isAsciiDigit = rest := by
    rw [decimal, List.dropWhile_append_of_pos hdigits]
    cases rest with
    | nil => simp
    | cons c rest => simp [hrest c rfl]
  rw [clause, List.append_assoc, isPrefixOf?_append, Option.bind_some, htake, hdrop, decimal,
    parseUsize_toDigits n.toNat_lt]
  rfl

theorem serves_windowRows {T : Type} {entity : EntityTable} {b : SqliteQueryBuilder} {all : List T}
    (hlim : b.lim = none) (hoff : b.off = 0) (hsmall : all.length < 2 ^ 63) :
    SqliteConnection.Serves ⟨false, fun sql _ => windowRows all (b.buildSelectQuery entity).1 sql,
      fun _ _ => .ok (.ofNat all.length)⟩ entity b all := by
  have hselect : ∀ size offset : UInt64,
      ({ b with off := offset, lim := some size }.buildSelectQuery entity).1 =
        (b.buildSelectQuery entity).1 ++ (" LIMIT ".toList ++ decimal size ++
          (if 0 < offset then " OFFSET ".toList ++ decimal offset else [])) := by
    intro size offset
    have hclauses : b.limitClause = [] ∧ b.offsetClause = [] := by
      unfold SqliteQueryBuilder.limitClause SqliteQueryBuilder.offsetClause
      rw [hlim, hoff]
      exact ⟨rfl, rfl⟩
    have hbare : (b.buildSelectQuery entity).1 = "SELECT ".toList ++
        ", ".toList.intercalate (entity.columns.map ColumnDef.name) ++ " FROM ".toList ++
          entity.tableName ++ (b.buildWhereClause entity).1 ++ b.orderClause := by
      unfold SqliteQueryBuilder.buildSelectQuery
      dsimp only
      rw [hclauses.1, hclauses.2, List.append_nil, List.append_nil]
    rw [hbare]
    exact List.append_assoc _ _ _
  have hrows : ∀ size offset : UInt64,
      windowRows all (b.buildSelectQuery entity).1
        ({ b with off := offset, lim := some size }.buildSelectQuery entity).1 =
          if size.toNat < 2 ^ 63 ∧ offset.toNat < 2 ^ 63 then
            .ok ((all.drop offset.toNat).take size.toNat)
          else .error (.query "datatype mismatch".toList) := by
    intro size offset
    have hoffset : ((clause " OFFSET ".toList (if 0 < offset then " OFFSET ".toList ++ decimal offset
        else [])).map Prod.fst).getD 0 = offset.toNat := by
      split
      next =>
        have hnone : ∀ c ∈ ([] : Text).head?, isAsciiDigit c = false := by simp
        have hclause := clause_decimal " OFFSET ".toList offset hnone
        rw [List.append_nil] at hclause
        rw [hclause]
        rfl
      next hzero =>
        have hz : offset.toNat = 0 :=
          Nat.eq_zero_of_not_pos fun hpos => hzero (UInt64.lt_iff_toNat_lt.mpr hpos)
        rw [hz]
        rfl
    have hrest : ∀ c ∈ (if 0 < offset then " OFFSET ".toList ++ decimal offset else []).head?,
        isAsciiDigit c = false := by
      intro c hc
      split at hc
      next =>
        cases hc
        rfl
      next => cases hc
    rw [windowRows, hselect, isPrefixOf?_append, Option.bind_some, clause_decimal _ _ hrest]
    simp only [hoffset]
  refine ⟨⟨hlim, hoff⟩, rfl, hsmall, rfl, ?_, ?_, ?_⟩
  · have hprefix := isPrefixOf?_append (b.buildSelectQuery entity).1 []
    rw [List.append_nil] at hprefix
    show windowRows all _ _ = _
    rw [windowRows, hprefix]
    rfl
  · intro size offset hsize hoffset
    exact (hrows size offset).trans (if_pos ⟨hsize, hoffset⟩)
  · intro size offset hlarge
    exact ⟨_, (hrows size offset).trans (if_neg hlarge)⟩

def letters (s : Text) : SerialEntity := fun field =>
  if field = "name".toList then some (.string s) else none

def byName : MemoryQueryBuilder := { order := some (.asc, "name".toList) }

def namesTable : MemoryTable Text := ⟨[['b'], ['a']], of_decide_eq_true rfl⟩

def names : EntityTable := ⟨"names".toList, [⟨"name".toList, "name".toList, .text⟩]⟩

def namesByName : SqliteQueryBuilder := { order := [("name".toList, .asc)] }

def namesConnection : SqliteConnection Text :=
  ⟨false, fun sql _ => windowRows [['a'], ['b']] (namesByName.buildSelectQuery names).1 sql,
    fun _ _ => .ok (.ofNat 2)⟩

theorem paged_iff_names :
    (PagedRight (byName.fetchAll letters [['b'], ['a']])
      (fun n => byName.fetchPage letters [['a'], ['b']] n 1) 1 1 ↔ (1 : UInt64).toNat + 1 < 2 ^ 64) ∧
    (PagedRight (SqliteQueryBuilder.fetchAll names namesConnection namesByName).result
      (fun n => (SqliteQueryBuilder.fetchPage names namesConnection namesByName n 1).result) 1 1 ↔
        (1 : UInt64).toNat + 1 < 2 ^ 64 ∧ InI64 1 1) := by
  have hordered : byName.Ordered letters namesTable.rows :=
    ⟨⟨_, rfl, ⟨by decide, by decide, by decide⟩⟩, rfl, rfl⟩
  exact paged_iff hordered (.refl _)
    (fun _ => .swap ['b'] ['a'] []) (serves_windowRows rfl rfl (by decide)) rfl (by decide) 1

/-- No page follows the one with the last number of all, but counting it overflows. -/
theorem not_paged : ¬ ∀ (T : Type) (serialize : T → SerialEntity) (b : MemoryQueryBuilder)
    (table : MemoryTable T), b.Ordered serialize table.rows → ∀ (values : List T)
    (scan : UInt64 → List T), values.Perm table.rows → (∀ n, (scan n).Perm table.rows) →
    ∀ size : UInt64, 1 ≤ size.toNat → ∀ number, PagedRight (b.fetchAll serialize values)
      (fun n => b.fetchPage serialize (scan n) n size) size number := by
  intro h
  have hright := h Text letters { order := some (.asc, "name".toList) } ⟨[], by decide⟩
    ⟨⟨_, rfl, ⟨by simp, by simp, by simp⟩⟩, rfl, rfl⟩ [] (fun _ => []) (.refl _) (fun _ => .refl _)
    1 (by decide) (.ofNat (2 ^ 64 - 1))
  obtain ⟨all, page, -, hpage, -, -, -, hnext⟩ := hright.answered
  cases hpage
  exact absurd hnext (by decide)

end Kernway
