import Kernway.ClientLocation
import Kernway.SqliteRepository
import Kernway.StaticFiles

namespace Kernway

/-- A part of an id, as its Rust type holds it. -/
inductive KeyPart
  | text (s : Text)
  | unsigned (n : UInt64)
  | signed (n : Int64)

inductive PartKind
  | text
  | unsigned
  | signed
  deriving DecidableEq

namespace KeyPart

def kind : KeyPart → PartKind
  | text _ => .text
  | unsigned _ => .unsigned
  | signed _ => .signed

/-- What serde makes of a part. -/
def toJson : KeyPart → Json
  | text s => .string s
  | unsigned n => .number (.posInt n)
  | signed n => SqliteEntity.jsonInteger n

/-- A part as a key shows it. -/
def written : KeyPart → Text
  | text s => s
  | unsigned n => decimal n
  | signed n => decimalI64 n

end KeyPart

/-- What serde makes of an id: a scalar of one part, an array of several. -/
def idToJson : List KeyPart → Json
  | [part] => part.toJson
  | parts => .array (parts.map KeyPart.toJson)

section

variable (print : Json → Text)

def numberText : JsonNumber → Text
  | .posInt n => decimal n
  | .negInt n => decimalI64 n
  | .float x => print (.number (.float x))

mutual

/-- `value_to_key`; `print` is JSON's own text. -/
def valueToKey : Json → Text
  | .number n => numberText print n
  | .string s => s
  | .array parts => ['-'].intercalate (valuesToKeys parts)
  | other => print other

def valuesToKeys : List Json → List Text
  | [] => []
  | v :: vs => valueToKey v :: valuesToKeys vs

end

/-- `id_to_string`: the key of the document of an id. -/
def documentKey (id : List KeyPart) : Text := valueToKey print (idToJson id)

/-- The parts behind the first, each with its `-`. -/
def keyTail (parts : List KeyPart) : Text := parts.flatMap fun p => '-' :: p.written

theorem decimal_of_nonneg {n : Int64} (h : 0 ≤ n) : decimal n.toUInt64 = decimalI64 n := by
  have hint : 0 ≤ n.toInt := by simpa [Int64.le_iff_toInt_le] using h
  unfold decimal decimalI64
  rw [Int64.toNat_toUInt64_of_le h]
  obtain ⟨k, hk⟩ := Int.eq_ofNat_of_zero_le hint
  rw [Int64.toNatClampNeg, hk]
  rfl

theorem valueToKey_toJson (p : KeyPart) : valueToKey print p.toJson = p.written := by
  cases p with
  | text s => rfl
  | unsigned n => rfl
  | signed n =>
    unfold KeyPart.toJson SqliteEntity.jsonInteger KeyPart.written
    dsimp only
    split
    next h => exact decimal_of_nonneg h
    next => rfl

theorem intercalate_written (p : KeyPart) (ps : List KeyPart) :
    ['-'].intercalate (valuesToKeys print ((p :: ps).map KeyPart.toJson)) =
      p.written ++ keyTail ps := by
  induction ps generalizing p with
  | nil =>
    rw [List.map_singleton, valuesToKeys, valuesToKeys, List.intercalate_singleton,
      valueToKey_toJson]
    exact (List.append_nil _).symm
  | cons q qs ih =>
    have hrest := ih q
    rw [List.map_cons, valuesToKeys] at hrest
    rw [List.map_cons, List.map_cons, valuesToKeys, valuesToKeys, List.intercalate_cons_cons, hrest,
      valueToKey_toJson, List.append_assoc]
    rfl

theorem documentKey_cons (p : KeyPart) (ps : List KeyPart) :
    documentKey print (p :: ps) = p.written ++ keyTail ps := by
  cases ps with
  | nil =>
    rw [documentKey, idToJson, valueToKey_toJson]
    exact (List.append_nil _).symm
  | cons q qs =>
    rw [documentKey, idToJson, valueToKey, intercalate_written]
    exact nofun

end

/-- Ids of these kinds whose keys can be told apart: behind a text stands no other one, and nothing
that may have a sign stands directly behind it. -/
def Separable : List PartKind → Prop
  | [] => True
  | .text :: rest => .text ∉ rest ∧ rest.head? ≠ some .signed
  | _ :: rest => Separable rest

section Spans

variable {P : Char → Bool} {d e a b : Text}

theorem takeWhile_of_head (h : ∀ c, a.head? = some c → P c = false) : a.takeWhile P = [] := by
  cases a with
  | nil => rfl
  | cons c rest => rw [List.takeWhile_cons, h c rfl, if_neg (by decide)]

theorem span_unique (hd : ∀ c ∈ d, P c = true) (he : ∀ c ∈ e, P c = true)
    (ha : ∀ c, a.head? = some c → P c = false) (hb : ∀ c, b.head? = some c → P c = false)
    (h : d ++ a = e ++ b) : d = e ∧ a = b := by
  have htake := congrArg (List.takeWhile P) h
  rw [List.takeWhile_append_of_pos hd, List.takeWhile_append_of_pos he, takeWhile_of_head ha,
    takeWhile_of_head hb, List.append_nil, List.append_nil] at htake
  subst htake
  exact ⟨rfl, List.append_cancel_left h⟩

theorem span_unique_right (hd : ∀ c ∈ d, P c = true) (he : ∀ c ∈ e, P c = true)
    (ha : ∀ c, a.getLast? = some c → P c = false) (hb : ∀ c, b.getLast? = some c → P c = false)
    (h : a ++ d = b ++ e) : a = b ∧ d = e := by
  have hrev := congrArg List.reverse h
  rw [List.reverse_append, List.reverse_append] at hrev
  obtain ⟨hde, hab⟩ := span_unique (P := P) (by simpa using hd) (by simpa using he)
    (by simpa [List.head?_reverse] using ha) (by simpa [List.head?_reverse] using hb) hrev
  exact ⟨List.reverse_inj.mp hab, List.reverse_inj.mp hde⟩

end Spans

namespace KeyPart

variable {p q : KeyPart}

theorem digits_toDigits (n : Nat) : ∀ c ∈ Nat.toDigits 10 n, isAsciiDigit c = true :=
  List.all_eq_true.mp (all_toDigits n)

/-- An integer is written as digits, with a minus sign in front where its kind has one. -/
theorem written_int (h : p.kind ≠ .text) : ∃ sign digits, p.written = sign ++ digits ∧
    digits ≠ [] ∧ (∀ c ∈ digits, isAsciiDigit c = true) ∧
      (sign = [] ∨ sign = ['-'] ∧ p.kind = .signed) := by
  cases p with
  | text s => exact absurd rfl h
  | unsigned n => exact ⟨[], _, rfl, Nat.toDigits_ne_nil, digits_toDigits _, .inl rfl⟩
  | signed n =>
    unfold written decimalI64
    dsimp only
    split
    next k => exact ⟨[], _, rfl, Nat.toDigits_ne_nil, digits_toDigits _, .inl rfl⟩
    next k => exact ⟨['-'], _, rfl, Nat.toDigits_ne_nil, digits_toDigits _, .inr ⟨rfl, rfl⟩⟩

theorem toDigits_inj {m n : Nat} (h : Nat.toDigits 10 m = Nat.toDigits 10 n) : m = n := by
  rw [← digitsValue_toDigits m, h, digitsValue_toDigits]

theorem decimalI64_inj {m n : Int64} (h : decimalI64 m = decimalI64 n) : m = n := by
  apply Int64.toInt_inj.mp
  unfold decimalI64 at h
  rcases hm : m.toInt with a | a <;> rcases hn : n.toInt with b | b <;> rw [hm, hn] at h
  · exact congrArg Int.ofNat (toDigits_inj h)
  · exact absurd h (toDigits_ne_cons (by decide) _ _)
  · exact absurd h.symm (toDigits_ne_cons (by decide) _ _)
  · exact congrArg Int.negSucc (Nat.succ.inj (toDigits_inj (List.cons.inj h).2))

theorem written_inj (hkind : p.kind = q.kind) (h : p.written = q.written) : p = q := by
  cases p with
  | text s =>
    cases q with
    | text t => exact congrArg text h
    | unsigned n | signed n => cases hkind
  | unsigned m =>
    cases q with
    | unsigned n => exact congrArg unsigned (UInt64.toNat_inj.mp (toDigits_inj h))
    | text t | signed n => cases hkind
  | signed m =>
    cases q with
    | signed n => exact congrArg signed (decimalI64_inj h)
    | text t | unsigned n => cases hkind

/-- A text that ends in a digit. -/
def EndsDigit (s : Text) : Prop := ∃ c, s.getLast? = some c ∧ isAsciiDigit c = true

theorem endsDigit_written (h : p.kind ≠ .text) (s : Text) : EndsDigit (s ++ p.written) := by
  obtain ⟨sign, digits, hwritten, hne, hall, -⟩ := written_int h
  obtain ⟨front, c, rfl⟩ := (List.eq_nil_or_concat digits).resolve_left hne
  rw [List.concat_eq_append] at hwritten hall
  refine ⟨c, ?_, hall c (by simp)⟩
  rw [hwritten, ← List.append_assoc, ← List.append_assoc, List.getLast?_concat]

/-- Behind an integer a key goes on with a dash, so that the integer is read from the left. -/
theorem written_append_inj {t u : Text} (hkind : p.kind = q.kind) (hint : p.kind ≠ .text)
    (ht : ∀ c, t.head? = some c → c = '-') (hu : ∀ c, u.head? = some c → c = '-')
    (h : p.written ++ t = q.written ++ u) : p = q ∧ t = u := by
  obtain ⟨sign, d, hp, hdne, hd, hsign⟩ := written_int hint
  obtain ⟨sign', e, hq, hene, he, hsign'⟩ := written_int (hkind ▸ hint)
  have hdash : isAsciiDigit '-' = false := by decide
  have hend : ∀ {s : Text}, (∀ c, s.head? = some c → c = '-') →
      ∀ c, s.head? = some c → isAsciiDigit c = false := fun h c hc => h c hc ▸ hdash
  have hmixed : ∀ {d e t u : Text}, (∀ c ∈ e, isAsciiDigit c = true) → e ≠ [] →
      '-' :: (d ++ t) ≠ e ++ u := by
    intro d e t u he hne heq
    cases e with
    | nil => exact hne rfl
    | cons c e =>
      have hc := he c List.mem_cons_self
      rw [← (List.cons.inj heq).1, hdash] at hc
      cases hc
  rw [hp, hq, List.append_assoc, List.append_assoc] at h
  have hsame : sign = sign' ∧ d ++ t = e ++ u := by
    rcases hsign with rfl | ⟨rfl, -⟩ <;> rcases hsign' with rfl | ⟨rfl, -⟩
    · exact ⟨rfl, h⟩
    · exact absurd (show '-' :: (e ++ u) = d ++ t from h.symm) (hmixed hd hdne)
    · exact absurd (show '-' :: (d ++ t) = e ++ u from h) (hmixed he hene)
    · exact ⟨rfl, (List.cons.inj h).2⟩
  obtain ⟨rfl, htu⟩ := span_unique hd he (hend ht) (hend hu) hsame.2
  exact ⟨written_inj hkind (by rw [hp, hq, hsame.1]), htu⟩

/-- The integer that a key ends in, from the right: its sign is no dash of the key where a digit
stands in front of that dash. -/
theorem append_written_inj {s t : Text} (hkind : p.kind = q.kind) (hint : p.kind ≠ .text)
    (hends : p.kind = .signed → EndsDigit s ∧ EndsDigit t)
    (h : s ++ '-' :: p.written = t ++ '-' :: q.written) : s = t ∧ p = q := by
  obtain ⟨sign, d, hp, -, hd, hsign⟩ := written_int hint
  obtain ⟨sign', e, hq, -, he, hsign'⟩ := written_int (hkind ▸ hint)
  have hlast : ∀ {s sign : Text}, sign = [] ∨ sign = ['-'] →
      ∀ c, (s ++ '-' :: sign).getLast? = some c → isAsciiDigit c = false := by
    intro s sign hsign c hc
    have hdash : c = '-' := by
      rcases hsign with rfl | rfl <;> simpa using hc.symm
    rw [hdash]
    decide
  have hregroup : ∀ {s sign d : Text}, s ++ '-' :: (sign ++ d) = (s ++ '-' :: sign) ++ d := by simp
  rw [hp, hq, hregroup, hregroup] at h
  obtain ⟨hfront, rfl⟩ := span_unique_right hd he (hlast (hsign.imp_right And.left))
    (hlast (hsign'.imp_right And.left)) h
  have hmixed : ∀ {s t : Text}, EndsDigit s → s ++ ['-'] ≠ t ++ ['-', '-'] := by
    rintro s t ⟨c, hc, hdigit⟩ heq
    have hs : s = t ++ ['-'] := by
      have heq' : s ++ ['-'] = (t ++ ['-']) ++ ['-'] := by simpa using heq
      exact List.append_cancel_right heq'
    rw [hs, List.getLast?_concat] at hc
    rw [← Option.some.inj hc] at hdigit
    cases hdigit
  have hsame : s = t ∧ sign = sign' := by
    rcases hsign with rfl | ⟨rfl, hsigned⟩ <;> rcases hsign' with rfl | ⟨rfl, hsigned'⟩
    · exact ⟨List.append_cancel_right hfront, rfl⟩
    · exact absurd hfront (hmixed (hends (hkind.trans hsigned')).1)
    · exact absurd hfront.symm (hmixed (hends hsigned).2)
    · exact ⟨List.append_cancel_right hfront, rfl⟩
  exact ⟨hsame.1, written_inj hkind (by rw [hp, hq, hsame.2])⟩

end KeyPart

section Keys

variable {ps qs : List KeyPart}

theorem keyTail_append (ps qs : List KeyPart) : keyTail (ps ++ qs) = keyTail ps ++ keyTail qs :=
  List.flatMap_append

theorem keyTail_singleton (p : KeyPart) : keyTail [p] = '-' :: p.written := List.append_nil _

theorem head_keyTail (ps : List KeyPart) : ∀ c, (keyTail ps).head? = some c → c = '-' := by
  intro c hc
  cases ps with
  | nil => cases hc
  | cons p ps => exact (Option.some.inj hc).symm

/-- Behind a text without other texts the integers are read from the right. -/
theorem text_tail_inj {s t : Text} (hkinds : ps.map KeyPart.kind = qs.map KeyPart.kind)
    (hno : .text ∉ ps.map KeyPart.kind) (hhead : (ps.map KeyPart.kind).head? ≠ some .signed)
    (h : s ++ keyTail ps = t ++ keyTail qs) : s = t ∧ ps = qs := by
  induction ps using List.reverseRecOn generalizing qs with
  | nil =>
    obtain rfl := List.map_eq_nil_iff.mp hkinds.symm
    exact ⟨List.append_cancel_right h, rfl⟩
  | append_singleton front p ih =>
    rcases List.eq_nil_or_concat qs with rfl | ⟨back, q, rfl⟩
    · simp at hkinds
    rw [List.concat_eq_append] at hkinds h ⊢
    rw [List.map_append, List.map_append] at hkinds
    obtain ⟨hkinds', hlast⟩ := List.append_inj' hkinds rfl
    have hkind : p.kind = q.kind := (List.cons.inj hlast).1
    rw [List.map_append, List.mem_append, not_or] at hno
    have hint : p.kind ≠ .text := fun heq => hno.2 (List.mem_singleton.mpr heq.symm)
    have hhead' : (front.map KeyPart.kind).head? ≠ some .signed := by
      intro heq
      apply hhead
      rw [List.map_append, List.head?_append, heq]
      rfl
    -- a part with a sign is not the first behind the text, and the part before it ends in a digit
    have hends : ∀ {s : Text} {ps : List KeyPart}, ps.map KeyPart.kind = front.map KeyPart.kind →
        p.kind = .signed → KeyPart.EndsDigit (s ++ keyTail ps) := by
      intro s ps hps hsigned
      rcases List.eq_nil_or_concat ps with rfl | ⟨init, last, rfl⟩
      · have hnil := List.map_eq_nil_iff.mp hps.symm
        rw [hnil] at hhead
        exact absurd (congrArg some hsigned) hhead
      · rw [List.concat_eq_append] at hps ⊢
        have hlast : last.kind ≠ .text := by
          intro heq
          apply hno.1
          rw [← hps, List.map_append]
          exact List.mem_append_right _ (List.mem_singleton.mpr heq.symm)
        rw [keyTail_append, keyTail_singleton, ← List.append_assoc]
        have hend := KeyPart.endsDigit_written hlast (s ++ keyTail init ++ ['-'])
        simpa using hend
    rw [keyTail_append, keyTail_append, keyTail_singleton, keyTail_singleton, ← List.append_assoc,
      ← List.append_assoc] at h
    obtain ⟨hfront, rfl⟩ := KeyPart.append_written_inj hkind hint
      (fun hsigned => ⟨hends rfl hsigned, hends hkinds'.symm hsigned⟩) h
    obtain ⟨rfl, rfl⟩ := ih hkinds' hno.1 hhead' hfront
    exact ⟨rfl, rfl⟩

variable (print : Json → Text)

/-- Ids of the same kinds have one key where the same stands behind another part. -/
theorem keyTail_eq_iff (hkinds : ps.map KeyPart.kind = qs.map KeyPart.kind) :
    keyTail ps = keyTail qs ↔ documentKey print ps = documentKey print qs := by
  cases ps with
  | nil =>
    obtain rfl := List.map_eq_nil_iff.mp hkinds.symm
    exact iff_of_true rfl rfl
  | cons p ps =>
    obtain ⟨q, qs, rfl, -, -⟩ := List.map_eq_cons_iff.mp hkinds.symm
    rw [documentKey_cons, documentKey_cons]
    exact List.cons_inj_right '-'

/-- The key of an id that is an integer and more, and of one that is a text and more. -/
theorem documentKey_inj (kinds : List PartKind) (h : Separable kinds) :
    ∀ {ps qs : List KeyPart}, ps.map KeyPart.kind = kinds → qs.map KeyPart.kind = kinds →
      documentKey print ps = documentKey print qs → ps = qs := by
  induction kinds with
  | nil =>
    intro ps qs hps hqs _
    rw [List.map_eq_nil_iff.mp hps, List.map_eq_nil_iff.mp hqs]
  | cons kind kinds ih =>
    intro ps qs hps hqs heq
    obtain ⟨p, ps, rfl, hp, hpsTail⟩ := List.map_eq_cons_iff.mp hps
    obtain ⟨q, qs, rfl, hq, hqsTail⟩ := List.map_eq_cons_iff.mp hqs
    clear hps hqs
    rw [documentKey_cons, documentKey_cons] at heq
    by_cases htext : kind = .text
    · subst htext
      obtain ⟨hno, hhead⟩ := h
      have hread : ∀ {p : KeyPart}, p.kind = .text → ∃ s, p = .text s := by
        intro p hp
        cases p with
        | text s => exact ⟨s, rfl⟩
        | unsigned n | signed n => cases hp
      obtain ⟨s, rfl⟩ := hread hp
      obtain ⟨t, rfl⟩ := hread hq
      obtain ⟨hst, rfl⟩ := text_tail_inj (hpsTail.trans hqsTail.symm) (hpsTail ▸ hno)
        (hpsTail ▸ hhead) heq
      rw [show s = t from hst]
    · have hrest : Separable kinds := by
        cases kind with
        | text => exact absurd rfl htext
        | unsigned | signed => exact h
      have hint : p.kind ≠ .text := hp ▸ htext
      obtain ⟨rfl, htail⟩ := KeyPart.written_append_inj (hp.trans hq.symm) hint (head_keyTail ps)
        (head_keyTail qs) heq
      have hkey := (keyTail_eq_iff print (hpsTail.trans hqsTail.symm)).mp htail
      rw [ih hrest hpsTail hqsTail hkey]

/-- One id of these kinds. -/
def someId (kinds : List PartKind) : List KeyPart :=
  kinds.map fun
    | .text => .text []
    | .unsigned => .unsigned 0
    | .signed => .signed 0

theorem map_kind_someId (kinds : List PartKind) : (someId kinds).map KeyPart.kind = kinds := by
  unfold someId
  rw [List.map_map]
  conv_rhs => rw [← List.map_id kinds]
  refine List.map_congr_left fun kind _ => ?_
  cases kind <;> rfl

/-- Where parts cannot be told apart, two ids have one key. -/
theorem exists_same_key {kinds : List PartKind} (h : ¬ Separable kinds) :
    ∃ ps qs : List KeyPart, ps.map KeyPart.kind = kinds ∧ qs.map KeyPart.kind = kinds ∧
      ps ≠ qs ∧ documentKey print ps = documentKey print qs := by
  induction kinds with
  | nil => exact absurd trivial h
  | cons kind kinds ih =>
    by_cases htext : kind = .text
    · subst htext
      have hcases : .text ∈ kinds ∨ kinds.head? = some .signed := by
        by_contra hnot
        rw [not_or] at hnot
        exact h hnot
      rcases hcases with hmem | hhead
      · -- a dash of the key for the dashes around what stands between the two texts
        obtain ⟨mid, rest, rfl⟩ := List.append_of_mem hmem
        obtain ⟨w, hw⟩ : ∃ w, w = keyTail (someId mid) ++ ['-'] := ⟨_, rfl⟩
        refine ⟨.text [] :: (someId mid ++ .text w :: someId rest),
          .text w :: (someId mid ++ .text [] :: someId rest), ?_, ?_, ?_, ?_⟩
        · simp [map_kind_someId, KeyPart.kind]
        · simp [map_kind_someId, KeyPart.kind]
        · intro heq
          have hnil := KeyPart.text.inj (List.cons.inj heq).1
          rw [← hnil] at hw
          simp at hw
        · rw [documentKey_cons, documentKey_cons, keyTail_append, keyTail_append]
          simp [keyTail, KeyPart.written, hw]
      · obtain ⟨rest, rfl⟩ : ∃ rest, kinds = .signed :: rest := by
          cases kinds with
          | nil => cases hhead
          | cons kind rest => exact ⟨rest, by rw [Option.some.inj hhead]⟩
        refine ⟨.text [] :: .signed (-1) :: someId rest, .text ['-'] :: .signed 1 :: someId rest,
          ?_, ?_, ?_, ?_⟩
        · simp [map_kind_someId, KeyPart.kind]
        · simp [map_kind_someId, KeyPart.kind]
        · intro heq
          cases KeyPart.text.inj (List.cons.inj heq).1
        · rw [documentKey_cons, documentKey_cons]
          rfl
    · have hrest : ¬ Separable kinds := by
        cases kind with
        | text => exact absurd rfl htext
        | unsigned | signed => exact h
      obtain ⟨ps, qs, hps, hqs, hne, hkey⟩ := ih hrest
      obtain ⟨p, hp⟩ : ∃ p : KeyPart, p.kind = kind := by
        have hsome := map_kind_someId [kind]
        obtain ⟨p, -, -, hp, -⟩ := List.map_eq_cons_iff.mp hsome
        exact ⟨p, hp⟩
      refine ⟨p :: ps, p :: qs, by rw [List.map_cons, hp, hps], by rw [List.map_cons, hp, hqs],
        fun heq => hne (List.cons.inj heq).2, ?_⟩
      have htail := (keyTail_eq_iff print (hps.trans hqs.symm)).mpr hkey
      rw [documentKey_cons, documentKey_cons, htail]

/-- The keys of the ids of these kinds are one for each id just where parts can be told apart. -/
theorem documentKey_inj_iff (kinds : List PartKind) :
    (∀ ps qs : List KeyPart, ps.map KeyPart.kind = kinds → qs.map KeyPart.kind = kinds →
      documentKey print ps = documentKey print qs → ps = qs) ↔ Separable kinds := by
  constructor
  · intro hinj
    by_contra hnot
    obtain ⟨ps, qs, hps, hqs, hne, hkey⟩ := exists_same_key print hnot
    exact hne (hinj ps qs hps hqs hkey)
  · intro h ps qs hps hqs hkey
    exact documentKey_inj print kinds h hps hqs hkey

end Keys

/-- The URL of `find_by_id`, `save` and `delete_by_id`. -/
def documentUrl (base table key : Text) : Text :=
  base ++ ("/indexes/".toList ++ table ++ "/documents/".toList ++ key)

/-- The characters of a segment of a path, after RFC 3986. -/
def isSegmentChar (c : Char) : Bool := c.isAlphanum || c ∈ "-._~!$&'()*+,;=:@".toList

/-- A request target that is a directory and one segment, which is for a name. -/
structure TargetNames (target dir name : Text) : Prop where
  segment : ∃ segment, target = dir ++ segment ∧ segment ≠ [] ∧
    (∀ c ∈ segment, isSegmentChar c = true ∨ c = '%') ∧
      Decodes (encodeUtf8 segment) (encodeUtf8 name)
  not_dot : ¬ Uri.IsDot name

/-- An id whose texts a segment takes as they are; alone a text is neither empty nor one or two
dots. -/
structure InSegment (id : List KeyPart) : Prop where
  chars : ∀ s, .text s ∈ id → ∀ c ∈ s, isSegmentChar c = true
  ne_nil : id ≠ []
  alone : ∀ s, id = [.text s] → s ≠ [] ∧ ¬ Uri.IsDot s

section Urls

open HttpClient

theorem cutText_append {pat s before after : Text} (h : cutText pat s = some (before, after))
    (tail : Text) (hpat : pat ≠ []) : cutText pat (s ++ tail) = some (before, after ++ tail) := by
  induction s generalizing before with
  | nil =>
    rw [cutText, if_neg hpat] at h
    cases h
  | cons c s ih =>
    rw [cutText] at h
    rw [List.cons_append, cutText]
    split at h
    next hprefix =>
      have hle := (List.isPrefixOf_iff_prefix.mp hprefix)
      have hlong : pat.isPrefixOf (c :: (s ++ tail)) = true := by
        rw [← List.cons_append]
        exact List.isPrefixOf_iff_prefix.mpr (hle.trans (List.prefix_append _ _))
      cases h
      rw [if_pos hlong, ← List.cons_append, List.drop_append_of_le_length hle.length_le]
    next hprefix =>
      obtain ⟨cut, hcut, heq⟩ := Option.map_eq_some_iff.mp h
      cases heq
      have hnot : ¬ pat.isPrefixOf (c :: (s ++ tail)) = true := by
        intro hlong
        have hlong' := List.isPrefixOf_iff_prefix.mp hlong
        have hpre : pat <+: c :: s := by
          refine List.prefix_of_prefix_length_le hlong' ⟨tail, rfl⟩ ?_
          -- the pattern is found further on, so that the text has room for it here
          have hsplit := congrArg List.length (cutText_eq_some hcut)
          simp only [List.length_append, List.length_cons] at hsplit ⊢
          omega
        exact hprefix (List.isPrefixOf_iff_prefix.mpr hpre)
      rw [if_neg hnot, ih hcut]
      rfl

theorem dropWhile_append_slash (rest : Text) {tail : Text} (h : tail.head? = some '/') :
    (rest ++ tail).takeWhile (· ≠ '/') = rest.takeWhile (· ≠ '/') ∧
      (rest ++ tail).dropWhile (· ≠ '/') = rest.dropWhile (· ≠ '/') ++ tail := by
  obtain ⟨tail, rfl⟩ := List.head?_eq_some_iff.mp h
  induction rest with
  | nil => simp
  | cons c rest ih =>
    by_cases hc : c = '/'
    · simp [hc]
    · simpa [hc] using ih

/-- What stands behind the path of an accepted URL is sent behind its path as it is. -/
theorem parse_append {base : Text} {u : Url} (h : (Url.parse base).toOption = some u) :
    ∃ dir, ∀ tail : Text, tail.head? = some '/' →
      (Url.parse (base ++ tail)).toOption = some { u with pathAndQuery := dir ++ tail } := by
  rw [parse_toOption] at h
  cases hcut : cutText "://".toList base with
  | none =>
    rw [hcut] at h
    cases h
  | some cut =>
    obtain ⟨scheme, rest⟩ := cut
    rw [hcut] at h
    dsimp only at h
    split at h
    next hhttp =>
      obtain ⟨hp, hhost, rfl⟩ := Option.map_eq_some_iff.mp h
      refine ⟨rest.dropWhile (· ≠ '/'), fun tail htail => ?_⟩
      obtain ⟨htake, hdrop⟩ := dropWhile_append_slash rest htail
      have hne : rest.dropWhile (· ≠ '/') ++ tail ≠ [] := by
        intro hnil
        rw [(List.append_eq_nil_iff.mp hnil).2] at htail
        cases htail
      rw [parse_toOption, cutText_append hcut tail (by decide)]
      dsimp only
      rw [if_pos hhttp, htake, hdrop, hhost, slashed, if_neg hne]
      rfl
    next => cases h

theorem isSegmentChar_digit {c : Char} (h : isAsciiDigit c = true) : isSegmentChar c = true := by
  have hdigit : c.isDigit = true := h
  simp [isSegmentChar, Char.isAlphanum, hdigit]

/-- The characters of an integer are those of a segment. -/
theorem KeyPart.isSegmentChar_written {p : KeyPart} (h : p.kind ≠ .text) :
    ∀ c ∈ p.written, isSegmentChar c = true := by
  obtain ⟨sign, digits, hwritten, -, hall, hsign⟩ := KeyPart.written_int h
  intro c hc
  rw [hwritten, List.mem_append] at hc
  rcases hc with hc | hc
  · rcases hsign with rfl | ⟨rfl, -⟩
    · cases hc
    · rw [List.mem_singleton.mp hc]
      decide
  · exact isSegmentChar_digit (hall c hc)

variable (print : Json → Text)

theorem mem_keyTail {ps : List KeyPart} {c : Char} :
    c ∈ keyTail ps ↔ (c = '-' ∧ ps ≠ []) ∨ ∃ p ∈ ps, c ∈ p.written := by
  induction ps with
  | nil => simp [keyTail]
  | cons p ps ih =>
    have hcons : keyTail (p :: ps) = '-' :: p.written ++ keyTail ps := rfl
    rw [hcons, List.mem_append, List.mem_cons, ih]
    constructor
    · rintro ((rfl | hc) | ⟨rfl, -⟩ | ⟨q, hq, hc⟩)
      · exact .inl ⟨rfl, List.cons_ne_nil _ _⟩
      · exact .inr ⟨p, List.mem_cons_self, hc⟩
      · exact .inl ⟨rfl, List.cons_ne_nil _ _⟩
      · exact .inr ⟨q, List.mem_cons_of_mem _ hq, hc⟩
    · rintro (⟨rfl, -⟩ | ⟨q, hq, hc⟩)
      · exact .inl (.inl rfl)
      · rcases List.mem_cons.mp hq with rfl | hq
        · exact .inl (.inr hc)
        · exact .inr (.inr ⟨q, hq, hc⟩)

theorem chars_documentKey (id : List KeyPart) :
    (∀ c ∈ documentKey print id, isSegmentChar c = true) ↔
      ∀ s, .text s ∈ id → ∀ c ∈ s, isSegmentChar c = true := by
  cases id with
  | nil => simp [documentKey, idToJson, valueToKey, valuesToKeys]
  | cons p ps =>
    have hmem : ∀ c, c ∈ documentKey print (p :: ps) ↔
        (c = '-' ∧ ps ≠ []) ∨ ∃ q ∈ p :: ps, c ∈ q.written := by
      intro c
      rw [documentKey_cons, List.mem_append, mem_keyTail]
      constructor
      · rintro (hc | hdash | ⟨q, hq, hc⟩)
        · exact .inr ⟨p, List.mem_cons_self, hc⟩
        · exact .inl hdash
        · exact .inr ⟨q, List.mem_cons_of_mem _ hq, hc⟩
      · rintro (hdash | ⟨q, hq, hc⟩)
        · exact .inr (.inl hdash)
        · rcases List.mem_cons.mp hq with rfl | hq
          · exact .inl hc
          · exact .inr (.inr ⟨q, hq, hc⟩)
    constructor
    · intro h s hs c hc
      exact h c ((hmem c).mpr (.inr ⟨.text s, hs, hc⟩))
    · intro h c hc
      rcases (hmem c).mp hc with ⟨rfl, -⟩ | ⟨q, hq, hc⟩
      · decide
      · cases q with
        | text s => exact h s hq c hc
        | unsigned n => exact KeyPart.isSegmentChar_written (by exact nofun) c hc
        | signed n => exact KeyPart.isSegmentChar_written (by exact nofun) c hc

/-- Only a text alone is written without a dash and without a digit. -/
theorem documentKey_short {id : List KeyPart} (hne : id ≠ [])
    (h : ∀ c ∈ documentKey print id, c = '.') : ∃ s, id = [.text s] := by
  cases id with
  | nil => exact absurd rfl hne
  | cons p ps =>
    rw [documentKey_cons] at h
    cases ps with
    | cons q ps =>
      have hdash := h '-' (List.mem_append_right _ List.mem_cons_self)
      cases hdash
    | nil =>
      by_cases htext : p.kind = .text
      · cases p with
        | text s => exact ⟨s, rfl⟩
        | unsigned n | signed n => cases htext
      · obtain ⟨c, hc, hdigit⟩ := KeyPart.endsDigit_written htext []
        have hmem := List.mem_of_getLast? hc
        rw [h c (List.mem_append_left _ hmem)] at hdigit
        cases hdigit

theorem mem_percent {s : Text} (h : ∀ c ∈ s, isSegmentChar c = true) : 37 ∉ encodeUtf8 s := by
  intro hmem
  have hpercent := (mem_encodeUtf8_ascii (d := '%') (by decide)).mp hmem
  cases h _ hpercent

/-- What decodes to itself has no escape in it. -/
theorem not_mem_of_decodes_self {s : Bytes} (h : Decodes s s) : 37 ∉ s := by
  have hle : ∀ {s t : Bytes}, Decodes s t →
      t.length ≤ s.length ∧ (37 ∈ s → t.length < s.length) := by
    intro s t h
    induction h with
    | nil => exact ⟨le_rfl, nofun⟩
    | escape _ _ _ ih =>
      simp only [List.length_cons]
      exact ⟨by omega, fun _ => by omega⟩
    | plain hne _ ih =>
      simp only [List.length_cons]
      refine ⟨by omega, fun hmem => ?_⟩
      have := ih.2 ((List.mem_cons.mp hmem).resolve_left (Ne.symm hne))
      omega
  intro hmem
  exact lt_irrefl _ ((hle h).2 hmem)

theorem targetNames_iff (dir : Text) (id : List KeyPart) :
    TargetNames (dir ++ documentKey print id) dir (documentKey print id) ↔ InSegment id := by
  constructor
  · rintro ⟨⟨segment, heq, hne, hchars, hdecodes⟩, hdot⟩
    obtain rfl := List.append_cancel_left heq
    have hpercent : '%' ∉ documentKey print id := fun hmem =>
      not_mem_of_decodes_self hdecodes ((mem_encodeUtf8_ascii (d := '%') (by decide)).mpr hmem)
    refine ⟨(chars_documentKey print id).mp fun c hc => ?_, ?_, ?_⟩
    · rcases hchars c hc with h | rfl
      · exact h
      · exact absurd hc hpercent
    · rintro rfl
      exact hne rfl
    · rintro s rfl
      rw [documentKey_cons, keyTail, List.flatMap_nil, List.append_nil] at hne hdot
      exact ⟨hne, hdot⟩
  · rintro ⟨hchars, hne, halone⟩
    have hkey := (chars_documentKey print id).mpr hchars
    have hlone : ∀ s, id = [.text s] → documentKey print id = s := by
      rintro s rfl
      rw [documentKey_cons, keyTail, List.flatMap_nil, List.append_nil]
      rfl
    refine ⟨⟨_, rfl, ?_, fun c hc => .inl (hkey c hc), decodes_self (mem_percent hkey)⟩, ?_⟩
    · intro hnil
      obtain ⟨s, rfl⟩ := documentKey_short print hne (by simp [hnil])
      exact (halone s rfl).1 ((hlone s rfl).symm.trans hnil)
    · intro hdot
      obtain ⟨s, rfl⟩ := documentKey_short print hne (by rcases hdot with h | h <;> simp [h])
      exact (halone s rfl).2 (hlone s rfl ▸ hdot)

/-- The request for an id goes to the server of the base URL, with the key as the last segment of
its target just where the texts of the id are characters of a segment. -/
theorem documentUrl_names {base : Text} {u : Url} (h : (Url.parse base).toOption = some u)
    (table : Text) : ∃ dir, ∀ id : List KeyPart,
      (Url.parse (documentUrl base table (documentKey print id))).toOption =
          some { u with pathAndQuery := dir ++ documentKey print id } ∧
        (TargetNames (dir ++ documentKey print id) dir (documentKey print id) ↔ InSegment id) := by
  obtain ⟨path, hpath⟩ := parse_append h
  refine ⟨path ++ ("/indexes/".toList ++ table ++ "/documents/".toList), fun id => ⟨?_, ?_⟩⟩
  · unfold documentUrl
    rw [hpath _ rfl]
    simp only [List.append_assoc]
  · exact targetNames_iff print _ id

theorem documentUrl_names_local : ∃ dir,
    (Url.parse (documentUrl "http://m:7700".toList "books".toList
        (documentKey (fun _ => []) [.text ['a'], .unsigned 7]))).toOption =
      some ⟨"http".toList, ['m'], 7700, dir ++ documentKey (fun _ => []) [.text ['a'], .unsigned 7]⟩ ∧
    TargetNames (dir ++ documentKey (fun _ => []) [.text ['a'], .unsigned 7]) dir
      (documentKey (fun _ => []) [.text ['a'], .unsigned 7]) ∧
    ¬ TargetNames (dir ++ documentKey (fun _ => []) [.text ['a', '/', 'b']]) dir
      (documentKey (fun _ => []) [.text ['a', '/', 'b']]) := by
  have hbase : (Url.parse "http://m:7700".toList).toOption =
      some ⟨"http".toList, ['m'], 7700, ['/']⟩ := by decide
  obtain ⟨dir, hdir⟩ := documentUrl_names (fun _ => []) hbase "books".toList
  obtain ⟨hparse, hnames⟩ := hdir [.text ['a'], .unsigned 7]
  refine ⟨dir, hparse, hnames.mpr ⟨?_, nofun, nofun⟩, fun hslash => ?_⟩
  · rintro s hs c hc
    simp only [List.mem_cons, KeyPart.text.injEq, List.not_mem_nil, or_false, reduceCtorEq] at hs
    subst hs
    obtain rfl := List.mem_singleton.mp hc
    rfl
  · have hchars := ((hdir [.text ['a', '/', 'b']]).2.mp hslash).chars ['a', '/', 'b']
      List.mem_cons_self '/' (by decide)
    cases hchars

end Urls

end Kernway
