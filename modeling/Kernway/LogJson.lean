import Kernway.Decimal
import Kernway.JsonObject
import Kernway.LogFilter

namespace Kernway.Log

structure Context where
  fields : List (Text × Text) := []

namespace Context

def «with» (context : Context) (key value : Text) : Context :=
  { fields := context.fields ++ [(key, value)] }

def isEmpty (context : Context) : Bool := context.fields.isEmpty

end Context

/-- A number in the digits of a base, with zeros before it up to a width. -/
def padded (base width n : Nat) : Text :=
  let digits := Nat.toDigits base n
  List.replicate (width - digits.length) '0' ++ digits

/-- The year, the month and the day, so many days behind the first of January 1970. -/
def civilFromDays (z : Nat) : Nat × Nat × Nat :=
  let z := z + 719468
  let era := z / 146097
  let doe := z - era * 146097
  let yoe := (doe - doe / 1460 + doe / 36524 - doe / 146096) / 365
  let y := yoe + era * 400
  let doy := doe - (365 * yoe + yoe / 4 - yoe / 100)
  let mp := (5 * doy + 2) / 153
  let d := doy - (153 * mp + 2) / 5 + 1
  let m := if mp < 10 then mp + 3 else mp - 9
  (if m ≤ 2 then y + 1 else y, m, d)

def iso8601 (millis : UInt64) : Text :=
  let secs := millis.toNat / 1000
  let ms := millis.toNat % 1000
  let sod := secs % 86400
  let (y, mo, d) := civilFromDays (secs / 86400)
  padded 10 4 y ++ '-' :: padded 10 2 mo ++ '-' :: padded 10 2 d ++ 'T' :: padded 10 2 (sod / 3600) ++
    ':' :: padded 10 2 (sod % 3600 / 60) ++ ':' :: padded 10 2 (sod % 60) ++
      '.' :: padded 10 3 ms ++ ['Z']

def jsonEscapeChar (c : Char) : Text :=
  if c = '"' then "\\\"".toList
  else if c = '\\' then "\\\\".toList
  else if c = '\n' then "\\n".toList
  else if c = '\r' then "\\r".toList
  else if c = '\t' then "\\t".toList
  else if c.toNat < 0x20 then "\\u".toList ++ padded 16 4 c.toNat
  else [c]

def jsonEscape (s : Text) : Text := s.flatMap jsonEscapeChar

/-- The fields of the context that is active, each with a comma behind it. -/
def contextJson : Option Context → Text
  | some context =>
    if context.isEmpty then []
    else context.fields.flatMap fun f =>
      "\"".toList ++ jsonEscape f.1 ++ "\":\"".toList ++ jsonEscape f.2 ++ "\",".toList
  | none => []

def formatJson (current : Option Context) (millis : UInt64) (level : Level) (target msg : Text) :
    Text :=
  "\x7b\"ts\":\"".toList ++ iso8601 millis ++ "\",\"level\":\"".toList ++ level.name ++
    "\",".toList ++ contextJson current ++ "\"target\":\"".toList ++ jsonEscape target ++
      "\",\"msg\":\"".toList ++ jsonEscape msg ++ "\"\x7d".toList

/-- The fields of the context that is active. -/
def activeFields (current : Option Context) : List (Text × Text) :=
  (current.map Context.fields).getD []

/-- What a line says. -/
def record (current : Option Context) (millis : UInt64) (level : Level) (target msg : Text) :
    List (Text × Text) :=
  ("ts".toList, iso8601 millis) :: ("level".toList, level.name) :: activeFields current ++
    [("target".toList, target), ("msg".toList, msg)]

/-- The piece of a string for which a character is written. -/
def pieceOf (c : Char) : Json.Piece :=
  if c.toNat < 0x20 ∧ c ≠ '\n' ∧ c ≠ '\r' ∧ c ≠ '\t' then .inr c.toNat else .inl c

/-- The members of a list of fields are those that have been added, in this order. -/
theorem fields_with (fields : List (Text × Text)) (context : Context) :
    (fields.foldl (fun context f => context.with f.1 f.2) context).fields =
      context.fields ++ fields := by
  induction fields generalizing context with
  | nil => exact (List.append_nil _).symm
  | cons f fields ih =>
    rw [List.foldl_cons, ih]
    exact List.append_assoc ..

theorem contextJson_eq (current : Option Context) :
    contextJson current = (activeFields current).flatMap fun f =>
      "\"".toList ++ jsonEscape f.1 ++ "\":\"".toList ++ jsonEscape f.2 ++ "\",".toList := by
  cases current with
  | none => rfl
  | some context =>
    unfold contextJson
    dsimp only
    split
    next h =>
      have hnil : context.fields = [] := List.isEmpty_iff.mp h
      show [] = context.fields.flatMap _
      rw [hnil]
      rfl
    next => rfl

theorem codeUnit_padded {n : Nat} (h : n < 0x20) :
    ∃ a b c d, padded 16 4 n = [a, b, c, d] ∧ Json.codeUnit a b c d = some n := by
  have hall : ∀ n, n < 0x20 → (padded 16 4 n).length = 4 ∧
      Json.codeUnit ((padded 16 4 n).getD 0 '0') ((padded 16 4 n).getD 1 '0')
        ((padded 16 4 n).getD 2 '0') ((padded 16 4 n).getD 3 '0') = some n := by decide
  obtain ⟨hlength, hunit⟩ := hall n h
  obtain ⟨a, b, c, d, heq⟩ := List.length_eq_four.mp hlength
  rw [heq] at hunit
  exact ⟨a, b, c, d, heq, hunit⟩

/-- What is written for a character is read back as the piece for it. -/
theorem readPieces_jsonEscapeChar (c : Char) (rest : Text) :
    Json.readPieces (jsonEscapeChar c ++ rest) =
      (Json.readPieces rest).map fun p => (pieceOf c :: p.1, p.2) := by
  unfold jsonEscapeChar
  split
  next h =>
    rw [h]
    exact Json.readPieces_escaped (show Json.escaped '"' = some '"' by decide) rest
  next hquote =>
    split
    next h =>
      rw [h]
      exact Json.readPieces_escaped (show Json.escaped '\\' = some '\\' by decide) rest
    next hslash =>
      split
      next h =>
        rw [h]
        exact Json.readPieces_escaped (show Json.escaped 'n' = some '\n' by decide) rest
      next hn =>
        split
        next h =>
          rw [h]
          exact Json.readPieces_escaped (show Json.escaped 'r' = some '\r' by decide) rest
        next hr =>
          split
          next h =>
            rw [h]
            exact Json.readPieces_escaped (show Json.escaped 't' = some '\t' by decide) rest
          next ht =>
            split
            next hlow =>
              obtain ⟨a, b, c', d, hpadded, hunit⟩ := codeUnit_padded hlow
              have hpiece : pieceOf c = .inr c.toNat := if_pos ⟨hlow, hn, hr, ht⟩
              rw [hpadded, hpiece]
              exact Json.readPieces_unit hunit rest
            next hlow =>
              have hpiece : pieceOf c = .inl c := if_neg fun h => hlow h.1
              rw [hpiece]
              exact Json.readPieces_plain hquote hslash (by omega) rest

theorem readPieces_jsonEscape (s rest : Text) :
    Json.readPieces (jsonEscape s ++ '"' :: rest) = some (s.map pieceOf, rest) := by
  induction s with
  | nil => rfl
  | cons c s ih =>
    have hcons : jsonEscape (c :: s) ++ '"' :: rest =
        jsonEscapeChar c ++ (jsonEscape s ++ '"' :: rest) := by
      unfold jsonEscape
      rw [List.flatMap_cons, List.append_assoc]
    rw [hcons, readPieces_jsonEscapeChar, ih]
    rfl

theorem combine_pieces (s : Text) : Json.combine (s.map pieceOf) = some s := by
  induction s with
  | nil => rfl
  | cons c s ih =>
    rw [List.map_cons]
    by_cases h : c.toNat < 0x20 ∧ c ≠ '\n' ∧ c ≠ '\r' ∧ c ≠ '\t'
    · have hpiece : pieceOf c = .inr c.toNat := if_pos h
      rw [hpiece, Json.combine_unit (by omega), ih, Char.ofNat_toNat]
      rfl
    · have hpiece : pieceOf c = .inl c := if_neg h
      rw [hpiece, Json.combine_char, ih]
      rfl

def quote (s : Text) : Text := '"' :: (jsonEscape s ++ ['"'])

theorem quotes_quote : Json.Quotes quote := by
  intro s rest
  unfold quote
  rw [List.cons_append, List.append_assoc]
  show ((Json.readPieces (jsonEscape s ++ '"' :: rest)).bind fun p =>
    (Json.combine p.1).bind fun text => some (text, p.2)) = _
  rw [readPieces_jsonEscape, Option.bind_some, combine_pieces]
  rfl

/-- A character that is written as it is. -/
def Unescaped (c : Char) : Prop := c ≠ '"' ∧ c ≠ '\\' ∧ 0x20 ≤ c.toNat

instance (c : Char) : Decidable (Unescaped c) := inferInstanceAs (Decidable (_ ∧ _ ∧ _))

def AllUnescaped (s : Text) : Prop := ∀ c ∈ s, Unescaped c

theorem allUnescaped_cons {c : Char} {s : Text} :
    AllUnescaped (c :: s) ↔ Unescaped c ∧ AllUnescaped s :=
  List.forall_mem_cons

theorem allUnescaped_append {s t : Text} :
    AllUnescaped (s ++ t) ↔ AllUnescaped s ∧ AllUnescaped t :=
  List.forall_mem_append

theorem jsonEscapeChar_of_unescaped {c : Char} (h : Unescaped c) : jsonEscapeChar c = [c] := by
  obtain ⟨hquote, hslash, hlow⟩ := h
  have hne : ∀ d : Char, d.toNat < 0x20 → c ≠ d := by
    rintro d hd rfl
    omega
  unfold jsonEscapeChar
  rw [if_neg hquote, if_neg hslash, if_neg (hne '\n' (by decide)), if_neg (hne '\r' (by decide)),
    if_neg (hne '\t' (by decide)), if_neg (by omega)]

theorem jsonEscape_of_unescaped {s : Text} (h : AllUnescaped s) : jsonEscape s = s := by
  induction s with
  | nil => rfl
  | cons c s ih =>
    unfold jsonEscape at ih ⊢
    rw [List.flatMap_cons, jsonEscapeChar_of_unescaped (h c (List.mem_cons_self ..)),
      ih fun c' hc' => h c' (List.mem_cons_of_mem c hc')]
    rfl

theorem unescaped_of_isDigit {c : Char} (h : c.isDigit = true) : Unescaped c := by
  have hrange : 48 ≤ c.toNat ∧ c.toNat ≤ 57 := by
    unfold Char.isDigit at h
    rw [Bool.and_eq_true, decide_eq_true_iff, decide_eq_true_iff] at h
    exact ⟨h.1, h.2⟩
  refine ⟨?_, ?_, by omega⟩
  · rintro rfl
    exact absurd hrange (by decide)
  · rintro rfl
    exact absurd hrange (by decide)

theorem allUnescaped_padded (width n : Nat) : AllUnescaped (padded 10 width n) := by
  intro c hc
  rcases List.mem_append.mp hc with hzero | hdigit
  · rw [List.eq_of_mem_replicate hzero]
    exact unescaped_of_isDigit (by decide)
  · exact unescaped_of_isDigit (isDigit_of_mem_toDigits hdigit)

theorem allUnescaped_iso8601 (millis : UInt64) : AllUnescaped (iso8601 millis) := by
  have hmarks : Unescaped '-' ∧ Unescaped 'T' ∧ Unescaped ':' ∧ Unescaped '.' ∧
      AllUnescaped ['Z'] := by
    refine ⟨by decide, by decide, by decide, by decide, ?_⟩
    exact allUnescaped_cons.2 ⟨by decide, fun _ h => nomatch h⟩
  unfold iso8601
  simp only [allUnescaped_append, allUnescaped_cons, allUnescaped_padded, hmarks, and_self]

theorem allUnescaped_name (level : Level) : AllUnescaped level.name := by
  have hall : (level.name.all fun c => decide (Unescaped c)) = true := by
    cases level <;> decide
  exact fun c hc => of_decide_eq_true (List.all_eq_true.mp hall c hc)

/-- The members of the context come before the others. -/
theorem fields_before (fields : List (Text × Text)) {rest : List (Text × Text)} (hne : rest ≠ []) :
    (fields.flatMap fun f => Json.member quote f ++ [',']) ++
        List.intercalate [','] (rest.map (Json.member quote)) =
      List.intercalate [','] ((fields ++ rest).map (Json.member quote)) := by
  induction fields with
  | nil => rfl
  | cons f fields ih =>
    have hmap : (fields ++ rest).map (Json.member quote) ≠ [] := by
      intro hnil
      exact hne (List.append_eq_nil_iff.mp (List.map_eq_nil_iff.mp hnil)).2
    rw [List.cons_append, List.flatMap_cons, List.append_assoc, List.append_assoc, ih,
      List.map_cons, Json.intercalate_cons_of_ne hmap]
    rfl

theorem quote_of_unescaped {s : Text} (h : AllUnescaped s) : quote s = '"' :: (s ++ ['"']) := by
  unfold quote
  rw [jsonEscape_of_unescaped h]

theorem written_members (a b c d : Text × Text) (fields : List (Text × Text)) :
    List.intercalate [','] ((a :: b :: fields ++ [c, d]).map (Json.member quote)) =
      Json.member quote a ++ ',' :: (Json.member quote b ++ ',' ::
        ((fields.flatMap fun f => Json.member quote f ++ [',']) ++
          (Json.member quote c ++ ',' :: Json.member quote d))) := by
  have hlast : List.intercalate [','] ([c, d].map (Json.member quote)) =
      Json.member quote c ++ ',' :: Json.member quote d := by
    rw [List.map_cons, Json.intercalate_cons_of_ne (by simp)]
    simp
  rw [List.cons_append, List.cons_append, List.map_cons, Json.intercalate_cons_of_ne (by simp),
    List.map_cons, Json.intercalate_cons_of_ne (by simp), ← fields_before _ (by simp), hlast]

theorem quote_keys : quote "ts".toList = "\"ts\"".toList ∧
    quote "level".toList = "\"level\"".toList ∧ quote "target".toList = "\"target\"".toList ∧
      quote "msg".toList = "\"msg\"".toList := by
  decide

theorem line_assoc (ts level fields target msg : Text) :
    "\x7b\"ts\":\"".toList ++ ts ++ "\",\"level\":\"".toList ++ level ++ "\",".toList ++ fields ++
        "\"target\":\"".toList ++ target ++ "\",\"msg\":\"".toList ++ msg ++ "\"\x7d".toList =
      '\x7b' :: (("\"ts\"".toList ++ ':' :: '"' :: (ts ++ ['"'])) ++ ',' ::
        (("\"level\"".toList ++ ':' :: '"' :: (level ++ ['"'])) ++ ',' :: (fields ++
          (("\"target\"".toList ++ ':' :: '"' :: (target ++ ['"'])) ++ ',' ::
            ("\"msg\"".toList ++ ':' :: '"' :: (msg ++ ['"']))))) ++ ['\x7d']) := by
  simp

theorem formatJson_eq (current : Option Context) (millis : UInt64) (level : Level)
    (target msg : Text) :
    formatJson current millis level target msg =
      '\x7b' :: (List.intercalate [',']
        ((record current millis level target msg).map (Json.member quote)) ++ ['\x7d']) := by
  have hfield : ∀ f : Text × Text,
      "\"".toList ++ jsonEscape f.1 ++ "\":\"".toList ++ jsonEscape f.2 ++ "\",".toList =
        Json.member quote f ++ [','] := by
    intro f
    unfold Json.member quote
    simp
  obtain ⟨hkey₁, hkey₂, hkey₃, hkey₄⟩ := quote_keys
  unfold formatJson record
  rw [contextJson_eq, funext hfield, written_members]
  unfold Json.member
  rw [quote_of_unescaped (allUnescaped_iso8601 millis), quote_of_unescaped (allUnescaped_name level),
    hkey₁, hkey₂, hkey₃, hkey₄]
  exact line_assoc _ _ _ _ _

/-- No character of a line is a control character. -/
theorem printable_jsonEscape (s : Text) : ∀ c ∈ jsonEscape s, 0x20 ≤ c.toNat := by
  have hhex : ∀ n, n < 0x20 → ((padded 16 4 n).all fun c => decide (0x20 ≤ c.toNat)) = true := by
    decide
  have hpairs : ∀ t ∈ ["\\\"".toList, "\\\\".toList, "\\n".toList, "\\r".toList, "\\t".toList,
      "\\u".toList], (t.all fun c => decide (0x20 ≤ c.toNat)) = true := by
    decide
  have hall : ∀ {t : Text}, (t.all fun c => decide (0x20 ≤ c.toNat)) = true →
      ∀ c ∈ t, 0x20 ≤ c.toNat :=
    fun h c hc => of_decide_eq_true (List.all_eq_true.mp h c hc)
  intro c hc
  obtain ⟨d, _, hd⟩ := List.mem_flatMap.mp hc
  unfold jsonEscapeChar at hd
  split at hd
  next => exact hall (hpairs _ (by simp)) c hd
  next =>
    split at hd
    next => exact hall (hpairs _ (by simp)) c hd
    next =>
      split at hd
      next => exact hall (hpairs _ (by simp)) c hd
      next =>
        split at hd
        next => exact hall (hpairs _ (by simp)) c hd
        next =>
          split at hd
          next => exact hall (hpairs _ (by simp)) c hd
          next =>
            split at hd
            next hlow =>
              rcases List.mem_append.mp hd with hd | hd
              · exact hall (hpairs _ (by simp)) c hd
              · exact hall (hhex _ hlow) c hd
            next hlow =>
              rw [List.mem_singleton.mp hd]
              omega

theorem printable_quote (s : Text) : ∀ c ∈ quote s, 0x20 ≤ c.toNat := by
  intro c hc
  unfold quote at hc
  rcases List.mem_cons.mp hc with rfl | hc
  · decide
  · rcases List.mem_append.mp hc with hc | hc
    · exact printable_jsonEscape s c hc
    · rw [List.mem_singleton.mp hc]
      decide

theorem printable_formatJson (current : Option Context) (millis : UInt64) (level : Level)
    (target msg : Text) : ∀ c ∈ formatJson current millis level target msg, 0x20 ≤ c.toNat := by
  intro c hc
  rw [formatJson_eq] at hc
  rcases List.mem_cons.mp hc with rfl | hc
  · decide
  · rcases List.mem_append.mp hc with hc | hc
    · by_cases hcomma : c = ','
      · rw [hcomma]
        decide
      · obtain ⟨t, ht, hct⟩ := (mem_intercalate hcomma).mp hc
        obtain ⟨m, _, rfl⟩ := List.mem_map.mp ht
        rcases List.mem_append.mp hct with hct | hct
        · exact printable_quote m.1 c hct
        · rcases List.mem_cons.mp hct with rfl | hct
          · decide
          · exact printable_quote m.2 c hct
    · rw [List.mem_singleton.mp hc]
      decide

/-- The keys of a line. -/
theorem nodup_record {current : Option Context} (millis : UInt64) (level : Level) (target msg : Text)
    (hnodup : ((activeFields current).map Prod.fst).Nodup)
    (hkeys : ∀ key ∈ ["ts".toList, "level".toList, "target".toList, "msg".toList],
      key ∉ (activeFields current).map Prod.fst) :
    ((record current millis level target msg).map Prod.fst).Nodup := by
  have hmap : (record current millis level target msg).map Prod.fst =
      ["ts".toList, "level".toList] ++
        ((activeFields current).map Prod.fst ++ ["target".toList, "msg".toList]) := by
    simp only [record, List.map_append, List.map_cons, List.map_nil, List.cons_append,
      List.nil_append]
  have hfirst : ["ts".toList, "level".toList].Nodup := by decide
  have hlast : ["target".toList, "msg".toList].Nodup := by decide
  have happ : ∀ a ∈ ["ts".toList, "level".toList], ∀ b ∈ ["target".toList, "msg".toList], a ≠ b := by
    decide
  have hbefore : ∀ a ∈ ["ts".toList, "level".toList],
      ∀ b ∈ (activeFields current).map Prod.fst, a ≠ b := by
    rintro a ha _ hb rfl
    exact hkeys a (List.mem_append_left ["target".toList, "msg".toList] ha) hb
  have hbehind : ∀ a ∈ (activeFields current).map Prod.fst,
      ∀ b ∈ ["target".toList, "msg".toList], a ≠ b := by
    rintro a ha _ hb rfl
    exact hkeys a (List.mem_append_right ["ts".toList, "level".toList] hb) ha
  rw [hmap]
  refine List.nodup_append.mpr ⟨hfirst, List.nodup_append.mpr ⟨hnodup, hlast, hbehind⟩, ?_⟩
  intro a ha b hb
  rcases List.mem_append.mp hb with hb | hb
  · exact hbefore a ha b hb
  · exact happ a ha b hb

/-- A line has no line break in it and is one object, whose members are the time, the level, the
fields of the context in their order, the target and the message; the level is the one of its name.
Where the keys of the fields differ from each other and from those of the line, no key is there
twice. -/
theorem parse_formatJson (current : Option Context) (millis : UInt64) (level : Level)
    (target msg : Text) :
    '\n' ∉ formatJson current millis level target msg ∧
      '\r' ∉ formatJson current millis level target msg ∧
      Json.parseObject (formatJson current millis level target msg) =
        some (record current millis level target msg) ∧
      Level.parse level.name = some level ∧
      (((activeFields current).map Prod.fst).Nodup →
        (∀ key ∈ ["ts".toList, "level".toList, "target".toList, "msg".toList],
          key ∉ (activeFields current).map Prod.fst) →
        ((record current millis level target msg).map Prod.fst).Nodup) := by
  have hprint := printable_formatJson current millis level target msg
  refine ⟨fun h => absurd (hprint _ h) (by decide), fun h => absurd (hprint _ h) (by decide), ?_,
    ?_, fun hnodup hkeys => ?_⟩
  · rw [formatJson_eq]
    exact Json.parseObject_written quotes_quote (by simp [record])
  · cases level <;> decide
  · exact nodup_record millis level target msg hnodup hkeys

end Kernway.Log
