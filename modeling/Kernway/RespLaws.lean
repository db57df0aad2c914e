import Kernway.Decimal
import Kernway.Resp

namespace Kernway.Redis

/-- The bytes are one reply that the parser takes whole. The two bytes behind a bulk string are
counted and not read. -/
inductive Whole : Bytes → Value → Prop
  | simple {line : Bytes} {s : Text} : findCrlf line = none → decodeUtf8 line = some s →
      Whole (43 :: line ++ [13, 10]) (.simple s)
  | int {line : Bytes} {n : Int64} : findCrlf line = none → lineInt line = some n →
      Whole (58 :: line ++ [13, 10]) (.int n)
  | nil {kind : UInt8} {line : Bytes} {n : Int64} : kind = 36 ∨ kind = 42 →
      findCrlf line = none → lineInt line = some n → n < 0 → Whole (kind :: line ++ [13, 10]) .nil
  | bulk {line bytes ending : Bytes} {n : Int64} : findCrlf line = none →
      lineInt line = some n → n.toInt = bytes.length → ending.length = 2 →
      Whole (36 :: line ++ [13, 10] ++ (bytes ++ ending)) (.bulk bytes)
  | array {line : Bytes} {n : Int64} {items : List (Bytes × Value)} : findCrlf line = none →
      lineInt line = some n → n.toInt = items.length → items.length ≤ maxItems →
      (∀ item ∈ items, Whole item.1 item.2) →
      Whole (42 :: line ++ [13, 10] ++ items.flatMap Prod.fst) (.array (items.map Prod.snd))

/-- The bytes have an empty line where a reply begins, or an array longer than can be allocated,
by themselves or as an item of an array whose earlier items are whole. -/
inductive Trips : Bytes → Prop
  | emptyLine {rest : Bytes} : Trips (13 :: 10 :: rest)
  | tooLong {line rest : Bytes} {n : Int64} : findCrlf line = none → lineInt line = some n →
      maxItems < n.toInt → Trips (42 :: line ++ [13, 10] ++ rest)
  | item {line rest : Bytes} {n : Int64} {items : List (Bytes × Value)} :
      findCrlf line = none → lineInt line = some n → items.length < n.toInt →
      n.toInt ≤ maxItems → (∀ item ∈ items, Whole item.1 item.2) → Trips rest →
      Trips (42 :: line ++ [13, 10] ++ (items.flatMap Prod.fst ++ rest))

/-- What the first line of a reply asks for. -/
inductive Leads : UInt8 → Bytes → Except RedisError Lead → Prop
  | simple {line : Bytes} {s : Text} : decodeUtf8 line = some s →
      Leads 43 line (.ok (.value (.simple s)))
  | int {line : Bytes} {n : Int64} : lineInt line = some n → Leads 58 line (.ok (.value (.int n)))
  | nil {kind : UInt8} {line : Bytes} {n : Int64} : kind = 36 ∨ kind = 42 →
      lineInt line = some n → n < 0 → Leads kind line (.ok (.value .nil))
  | bulk {line : Bytes} {n : Int64} {len : Nat} : lineInt line = some n → n.toInt = len →
      Leads 36 line (.ok (.bulk len))
  | array {line : Bytes} {n : Int64} {count : Nat} : lineInt line = some n → n.toInt = count →
      count ≤ maxItems → Leads 42 line (.ok (.array count))
  | tooLong {line : Bytes} {n : Int64} : lineInt line = some n → maxItems < n.toInt →
      Leads 42 line (.error .panicked)
  | refused {kind : UInt8} {line : Bytes} {e : RedisError} : e ≠ .panicked →
      Leads kind line (.error e)

theorem asStr_cases (line : Bytes) :
    (∃ s, decodeUtf8 line = some s ∧ asStr line = .ok s) ∨
      ∃ message, asStr line = .error (.protocol message) := by
  unfold asStr
  cases h : decodeUtf8 line with
  | some s => exact Or.inl ⟨s, rfl, rfl⟩
  | none => exact Or.inr ⟨_, rfl⟩

theorem asInt_cases (line : Bytes) :
    (∃ n, lineInt line = some n ∧ asInt line = .ok n) ∨
      ∃ message, asInt line = .error (.protocol message) := by
  rcases asStr_cases line with ⟨s, hs, hok⟩ | ⟨message, herror⟩
  · have hline : lineInt line = parseI64 s := by rw [lineInt, hs, Option.bind_some]
    cases hn : parseI64 s with
    | some n => exact Or.inl ⟨n, by rw [hline, hn], asInt_eq (by rw [hline, hn])⟩
    | none =>
      apply Or.inr
      exact ⟨_, by simp only [asInt, hok, hn, bind, Except.bind]; rfl⟩
  · apply Or.inr
    exact ⟨message, by simp only [asInt, herror, bind, Except.bind]⟩

theorem toInt_toNat_of_not_neg {n : Int64} (h : ¬ n < 0) : n.toInt = n.toInt.toNat := by
  rw [Int64.lt_iff_toInt_lt] at h
  have hzero : (0 : Int64).toInt = 0 := rfl
  omega

theorem leads_lead (kind : UInt8) (line : Bytes) : Leads kind line (lead kind line) := by
  have hprotocol : ∀ message, Leads kind line (.error (.protocol message)) := fun message =>
    .refused (by simp)
  unfold lead
  split
  next hkind =>
    subst hkind
    rcases asStr_cases line with ⟨s, hs, hok⟩ | ⟨message, herror⟩
    · rw [hok]
      exact .simple hs
    · rw [herror]
      exact hprotocol message
  next =>
    split
    next hkind =>
      rcases asStr_cases line with ⟨s, hs, hok⟩ | ⟨message, herror⟩
      · rw [hok]
        exact .refused (by simp)
      · rw [herror]
        exact hprotocol message
    next =>
      rcases asInt_cases line with ⟨n, hn, hok⟩ | ⟨message, herror⟩
      · rw [hok]
        split
        next hkind =>
          subst hkind
          exact .int hn
        next =>
          split
          next hkind =>
            subst hkind
            by_cases hneg : n < 0
            · rw [Except.map, if_pos hneg]
              exact .nil (Or.inl rfl) hn hneg
            · rw [Except.map, if_neg hneg]
              exact .bulk hn (toInt_toNat_of_not_neg hneg)
          next =>
            split
            next hkind =>
              subst hkind
              rw [Except.bind]
              by_cases hneg : n < 0
              · rw [if_pos hneg]
                exact .nil (Or.inr rfl) hn hneg
              · have hcount := toInt_toNat_of_not_neg hneg
                rw [if_neg hneg]
                by_cases hlong : maxItems < n.toInt.toNat
                · rw [if_pos hlong]
                  exact .tooLong hn (by omega)
                · rw [if_neg hlong]
                  exact .array hn hcount (by omega)
            next => exact hprotocol _
      · rw [herror]
        split
        next => exact hprotocol message
        next =>
          split
          next => exact hprotocol message
          next =>
            split
            next => exact hprotocol message
            next => exact hprotocol _

theorem parseItems_whole {items : List (Bytes × Value)}
    (h : ∀ item ∈ items, ∀ rest, parse (item.1 ++ rest) = .ok (some (item.2, item.1.length)))
    (rest : Bytes) (count : Nat) :
    parseItems (items.flatMap Prod.fst ++ rest) (items.length + count) =
      (parseItems rest count).map (Option.map fun got =>
        (items.map Prod.snd ++ got.1, (items.flatMap Prod.fst).length + got.2)) := by
  induction items with
  | nil =>
    rw [List.length_nil, Nat.zero_add, List.flatMap_nil, List.nil_append]
    cases parseItems rest count with
    | error e => rfl
    | ok got =>
      cases got with
      | none => rfl
      | some got =>
        obtain ⟨vs, used⟩ := got
        simp [Except.map]
  | cons item items ih =>
    rw [List.forall_mem_cons] at h
    rw [List.length_cons, Nat.succ_add, List.flatMap_cons, List.append_assoc, parseItems, h.1]
    dsimp only
    rw [List.drop_left, ih h.2]
    cases parseItems rest count with
    | error e => rfl
    | ok got =>
      cases got with
      | none => rfl
      | some got =>
        obtain ⟨vs, used⟩ := got
        simp [Except.map, Nat.add_assoc]

theorem parse_simple {line : Bytes} {s : Text} (hline : findCrlf line = none)
    (hs : decodeUtf8 line = some s) (rest : Bytes) :
    parse (43 :: line ++ [13, 10] ++ rest) = .ok (some (.simple s, line.length + 3)) := by
  rw [parse_cons (by decide) hline, lead, if_pos rfl, asStr_eq hs]
  rfl

theorem parse_int {line : Bytes} {n : Int64} (hline : findCrlf line = none)
    (hn : lineInt line = some n) (rest : Bytes) :
    parse (58 :: line ++ [13, 10] ++ rest) = .ok (some (.int n, line.length + 3)) := by
  rw [parse_cons (by decide) hline, lead, if_neg (by decide), if_neg (by decide), if_pos rfl,
    asInt_eq hn]
  rfl

theorem parse_nil_reply {kind : UInt8} {line : Bytes} {n : Int64} (hkind : kind = 36 ∨ kind = 42)
    (hline : findCrlf line = none) (hn : lineInt line = some n) (hneg : n < 0) (rest : Bytes) :
    parse (kind :: line ++ [13, 10] ++ rest) = .ok (some (.nil, line.length + 3)) := by
  rcases hkind with rfl | rfl
  · rw [parse_cons (by decide) hline, lead, if_neg (by decide), if_neg (by decide),
      if_neg (by decide), if_pos rfl, asInt_eq hn, Except.map, if_pos hneg]
  · rw [parse_cons (by decide) hline, lead, if_neg (by decide), if_neg (by decide),
      if_neg (by decide), if_neg (by decide), if_pos rfl, asInt_eq hn, Except.bind, if_pos hneg]

theorem parse_bulk {line : Bytes} {n : Int64} {len : Nat} (hline : findCrlf line = none)
    (hn : lineInt line = some n) (hlen : n.toInt = len) (rest : Bytes) :
    parse (36 :: line ++ [13, 10] ++ rest) =
      if rest.length < len + 2 then .ok none
      else .ok (some (.bulk (rest.take len), line.length + 3 + len + 2)) := by
  rw [parse_cons (by decide) hline, lead, if_neg (by decide), if_neg (by decide),
    if_neg (by decide), if_pos rfl, asInt_eq hn, Except.map, if_neg (toInt_natCast hlen).1,
    (toInt_natCast hlen).2]

theorem parse_array {line : Bytes} {n : Int64} {count : Nat} (hline : findCrlf line = none)
    (hn : lineInt line = some n) (hcount : n.toInt = count) (rest : Bytes) :
    parse (42 :: line ++ [13, 10] ++ rest) =
      if maxItems < count then .error .panicked
      else (parseItems rest count).map
        (Option.map fun got => (.array got.1, line.length + 3 + got.2)) := by
  rw [parse_cons (by decide) hline, lead, if_neg (by decide), if_neg (by decide),
    if_neg (by decide), if_neg (by decide), if_pos rfl, asInt_eq hn, Except.bind,
    if_neg (toInt_natCast hcount).1, (toInt_natCast hcount).2]
  by_cases hlong : maxItems < count
  · rw [if_pos hlong, if_pos hlong]
  · rw [if_neg hlong, if_neg hlong]

/-- A whole reply is parsed as its value, whatever follows it. -/
theorem parse_whole {bytes : Bytes} {v : Value} (h : Whole bytes v) (rest : Bytes) :
    parse (bytes ++ rest) = .ok (some (v, bytes.length)) := by
  induction h generalizing rest with
  | simple hline hs =>
    rw [parse_simple hline hs]
    simp
  | int hline hn =>
    rw [parse_int hline hn]
    simp
  | nil hkind hline hn hneg =>
    rw [parse_nil_reply hkind hline hn hneg]
    simp
  | @bulk line bytes ending n hline hn hlen hending =>
    rw [List.append_assoc, parse_bulk hline hn hlen, if_neg, List.append_assoc,
      List.take_left' rfl]
    · simp only [List.length_append, List.length_cons, List.length_nil, hending]
      congr 3
    · simp only [List.length_append, hending]
      omega
  | @array line n items hline hn hcount hmax hitems ih =>
    have hwhole := parseItems_whole (fun item hitem rest => ih item hitem rest) rest 0
    rw [Nat.add_zero, parseItems.eq_1] at hwhole
    rw [List.append_assoc, parse_array hline hn hcount, if_neg (by omega), hwhole]
    simp only [Except.map, Option.map_some, List.append_nil, Nat.add_zero, List.length_append,
      List.length_cons, List.length_nil]

theorem parse_trips {b : Bytes} (h : Trips b) : parse b = .error .panicked := by
  induction h with
  | emptyLine =>
    have hline : ∀ rest, findCrlf (13 :: 10 :: rest) = some 0 := fun _ => rfl
    rw [parse_line (hline _), if_pos rfl]
  | @tooLong line rest n hline hn hlong =>
    have hcount : n.toInt = n.toInt.toNat := by omega
    rw [parse_array hline hn hcount, if_pos (by omega)]
  | @item line rest n items hline hn hcount hmax hitems _ ih =>
    obtain ⟨more, hmore⟩ : ∃ more : Nat, n.toInt = (items.length + (more + 1) : Nat) :=
      ⟨n.toInt.toNat - items.length - 1, by omega⟩
    have hwhole := parseItems_whole (fun item hitem rest => parse_whole (hitems item hitem) rest)
      rest (more + 1)
    rw [parse_array hline hn hmore, if_neg (by omega), hwhole, parseItems, ih]
    rfl

/-- What an answer of the parser says of the bytes. -/
structure Grounded (b : Bytes) : Prop where
  whole : ∀ {v used}, parse b = .ok (some (v, used)) →
    ∃ bytes rest, b = bytes ++ rest ∧ used = bytes.length ∧ Whole bytes v
  trips : parse b = .error .panicked → Trips b

theorem Grounded.of_some {bytes rest : Bytes} {v : Value} (hwhole : Whole bytes v) :
    Grounded (bytes ++ rest) := by
  have hparse := parse_whole hwhole rest
  constructor
  · intro v' used h
    rw [hparse] at h
    cases h
    exact ⟨bytes, rest, rfl, rfl, hwhole⟩
  · intro h
    rw [hparse] at h
    cases h

theorem Grounded.of_none {b : Bytes} (hparse : parse b = .ok none) : Grounded b := by
  constructor
  · intro v used h
    rw [hparse] at h
    cases h
  · intro h
    rw [hparse] at h
    cases h

theorem Grounded.of_error {b : Bytes} {e : RedisError} (hparse : parse b = .error e)
    (he : e ≠ .panicked) : Grounded b := by
  constructor
  · intro v used h
    rw [hparse] at h
    cases h
  · intro h
    rw [hparse] at h
    cases h
    exact absurd rfl he

theorem Grounded.of_trips {b : Bytes} (htrips : Trips b) : Grounded b := by
  constructor
  · intro v used h
    rw [parse_trips htrips] at h
    cases h
  · intro
    exact htrips

theorem parseItems_grounded {b : Bytes} (h : ∀ b' : Bytes, b'.length ≤ b.length → Grounded b')
    {count : Nat} {vs : List Value} {used : Nat} (hitems : parseItems b count = .ok (some (vs, used))) :
    ∃ (items : List (Bytes × Value)) (rest : Bytes), b = items.flatMap Prod.fst ++ rest ∧
      items.length = count ∧ vs = items.map Prod.snd ∧ used = (items.flatMap Prod.fst).length ∧
      ∀ item ∈ items, Whole item.1 item.2 := by
  induction count generalizing b vs used with
  | zero =>
    rw [parseItems] at hitems
    cases hitems
    exact ⟨[], b, rfl, rfl, rfl, rfl, by simp⟩
  | succ count ih =>
    rw [parseItems] at hitems
    split at hitems
    next => cases hitems
    next => cases hitems
    next v first hfirst =>
      obtain ⟨bytes, rest, rfl, rfl, hwhole⟩ := (h b (Nat.le_refl _)).whole hfirst
      rw [List.drop_left] at hitems
      cases hrest : parseItems rest count with
      | error e =>
        rw [hrest] at hitems
        cases hitems
      | ok got =>
        cases got with
        | none =>
          rw [hrest] at hitems
          cases hitems
        | some got =>
          rw [hrest] at hitems
          cases hitems
          have hshorter : ∀ b' : Bytes, b'.length ≤ rest.length → Grounded b' := by
            intro b' hb'
            apply h
            rw [List.length_append]
            omega
          obtain ⟨items, tail, rfl, rfl, hvs, hused, hall⟩ := ih hshorter hrest
          refine ⟨(bytes, v) :: items, tail, ?_, rfl, ?_, ?_, ?_⟩
          · rw [List.flatMap_cons, List.append_assoc]
          · rw [List.map_cons, hvs]
          · rw [List.flatMap_cons, List.length_append, hused]
          · exact List.forall_mem_cons.mpr ⟨hwhole, hall⟩

theorem parseItems_panicked {b : Bytes} (h : ∀ b' : Bytes, b'.length ≤ b.length → Grounded b')
    {count : Nat} (hitems : parseItems b count = .error .panicked) :
    ∃ (items : List (Bytes × Value)) (rest : Bytes), b = items.flatMap Prod.fst ++ rest ∧
      items.length < count ∧ (∀ item ∈ items, Whole item.1 item.2) ∧ Trips rest := by
  induction count generalizing b with
  | zero =>
    rw [parseItems] at hitems
    cases hitems
  | succ count ih =>
    rw [parseItems] at hitems
    split at hitems
    next e herror =>
      cases hitems
      exact ⟨[], b, rfl, Nat.succ_pos _, by simp, (h b (Nat.le_refl _)).trips herror⟩
    next => cases hitems
    next v first hfirst =>
      obtain ⟨bytes, rest, rfl, rfl, hwhole⟩ := (h b (Nat.le_refl _)).whole hfirst
      rw [List.drop_left] at hitems
      cases hrest : parseItems rest count with
      | error e =>
        rw [hrest] at hitems
        cases hitems
        have hshorter : ∀ b' : Bytes, b'.length ≤ rest.length → Grounded b' := by
          intro b' hb'
          apply h
          rw [List.length_append]
          omega
        obtain ⟨items, tail, rfl, hlen, hall, htrips⟩ := ih hshorter hrest
        refine ⟨(bytes, v) :: items, tail, ?_, ?_, ?_, htrips⟩
        · rw [List.flatMap_cons, List.append_assoc]
        · exact Nat.succ_lt_succ hlen
        · exact List.forall_mem_cons.mpr ⟨hwhole, hall⟩
      | ok got =>
        rw [hrest] at hitems
        cases got with
        | none => cases hitems
        | some got => cases hitems

theorem grounded (b : Bytes) : Grounded b := by
  induction hn : b.length using Nat.strongRecOn generalizing b with
  | _ n ih =>
    subst hn
    cases hcrlf : findCrlf b with
    | none => exact .of_none (parse_none hcrlf)
    | some crlf =>
      obtain ⟨rest, heq, hfree⟩ := findCrlf_some hcrlf
      cases hfront : b.take crlf with
      | nil =>
        rw [heq, hfront]
        exact .of_trips .emptyLine
      | cons kind line =>
        rw [hfront] at heq hfree
        have hb : b = kind :: line ++ [13, 10] ++ rest := by
          rw [heq, List.append_assoc]
          rfl
        have hline : findCrlf line = none := by
          cases hsome : findCrlf line with
          | none => rfl
          | some i =>
            rw [findCrlf, hsome] at hfree
            split at hfree
            next => cases hfree
            next => cases hfree
        have hshorter : ∀ b' : Bytes, b'.length ≤ rest.length → Grounded b' := by
          intro b' hb'
          apply ih b'.length _ b' rfl
          rw [hb]
          simp only [List.length_append, List.length_cons]
          omega
        rw [hb]
        have hparse := parse_front hfree rest
        have hleads := leads_lead kind line
        generalize lead kind line = outcome at hparse hleads
        cases hleads with
        | simple hs => exact .of_some (.simple hline hs)
        | int hn => exact .of_some (.int hline hn)
        | nil hkind hn hneg => exact .of_some (.nil hkind hline hn hneg)
        | @bulk _ n len hn hlen =>
          by_cases hshort : rest.length < len + 2
          · exact .of_none (hparse.trans (if_pos hshort))
          · have hsplit : rest = rest.take len ++ (rest.drop len).take 2 ++ rest.drop (len + 2) := by
              rw [List.append_assoc, ← List.drop_drop, List.take_append_drop,
                List.take_append_drop]
            have htaken : n.toInt = (rest.take len).length := by
              rw [hlen, List.length_take]
              omega
            have hending : ((rest.drop len).take 2).length = 2 := by
              rw [List.length_take, List.length_drop]
              omega
            rw [hsplit, ← List.append_assoc]
            exact .of_some (.bulk hline hn htaken hending)
        | @array _ n count hn hcount hmax =>
          dsimp only at hparse
          constructor
          · intro v used h
            rw [hparse] at h
            cases hrest : parseItems rest count with
            | error e =>
              rw [hrest] at h
              cases h
            | ok got =>
              cases got with
              | none =>
                rw [hrest] at h
                cases h
              | some got =>
                obtain ⟨vs, taken⟩ := got
                obtain ⟨items, tail, rfl, rfl, rfl, rfl, hall⟩ := parseItems_grounded hshorter hrest
                rw [hrest] at h
                cases h
                have hwhole := Whole.array hline hn hcount hmax hall
                refine ⟨_, tail, (List.append_assoc _ _ _).symm, ?_, hwhole⟩
                simp only [List.length_append, List.length_cons, List.length_nil]
          · intro h
            rw [hparse] at h
            have hpanicked : parseItems rest count = .error .panicked := by
              cases hrest : parseItems rest count with
              | error e =>
                rw [hrest] at h
                cases h
                rfl
              | ok got =>
                rw [hrest] at h
                cases h
            obtain ⟨items, tail, rfl, hlt, hall, htrips⟩ := parseItems_panicked hshorter hpanicked
            exact .item hline hn (by omega) (by omega) hall htrips
        | tooLong hn hlong => exact .of_trips (.tooLong hline hn hlong)
        | refused he => exact .of_error hparse he

/-- Where the parser goes out of range. -/
theorem parse_panicked_iff {b : Bytes} : parse b = .error .panicked ↔ Trips b :=
  ⟨(grounded b).trips, parse_trips⟩

/-- A line of digits is the number that it writes, where an `i64` holds it. -/
theorem lineInt_digits (n : Nat) : lineInt (encodeUtf8 (Nat.toDigits 10 n)) =
    if n < 2 ^ 63 then some (.ofInt n) else none := by
  rw [lineInt, decodeUtf8_encodeUtf8, Option.bind_some, parseI64]
  · simp only [digitsValue_toDigits, all_toDigits, Bool.false_eq_true, if_false]
    refine if_congr ?_ rfl rfl
    exact ⟨fun h => h.2.2, fun h => ⟨Nat.toDigits_ne_nil, trivial, h⟩⟩
  · exact toDigits_ne_cons (by decide) n
  · exact toDigits_ne_cons (by decide) n

theorem toInt_ofInt_natCast {n : Nat} (h : n < 2 ^ 63) : (Int64.ofInt n).toInt = n := by
  apply Int64.toInt_ofInt_of_le <;> omega

theorem notMem_findCrlf {line : Bytes} (h : (13 : UInt8) ∉ line) : findCrlf line = none := by
  induction line with
  | nil => rfl
  | cons b line ih =>
    rw [List.mem_cons, not_or] at h
    exact findCrlf_cons (Ne.symm h.1) (ih h.2)

theorem findCrlf_digits (n : Nat) : findCrlf (encodeUtf8 (Nat.toDigits 10 n)) = none := by
  apply notMem_findCrlf
  intro h
  have hmem : '\r' ∈ Nat.toDigits 10 n := (mem_encodeUtf8_ascii (d := '\r') (by decide)).mp h
  exact notMem_toDigits (by decide) n hmem

theorem whole_encodeArg {arg : Bytes} (h : arg.length < 2 ^ 63) :
    Whole (encodeArg arg) (.bulk arg) := by
  have hline := (lineInt_digits arg.length).trans (if_pos h)
  have hending : ([13, 10] : Bytes).length = 2 := rfl
  have hwhole := Whole.bulk (findCrlf_digits arg.length) hline (toInt_ofInt_natCast h) hending
  rwa [← List.append_assoc] at hwhole

theorem parse_encodeArg {arg : Bytes} (h : arg.length < 2 ^ 63) (rest : Bytes) :
    parse (encodeArg arg ++ rest) = .ok (some (.bulk arg, (encodeArg arg).length)) :=
  parse_whole (whole_encodeArg h) rest

/-- A length that no `i64` holds is no length. -/
theorem parse_unreadable {kind : UInt8} {n : Nat} (hkind : kind = 36 ∨ kind = 42)
    (h : ¬ n < 2 ^ 63) (rest : Bytes) :
    ∃ e, parse (kind :: encodeUtf8 (Nat.toDigits 10 n) ++ [13, 10] ++ rest) = .error e := by
  have hline := (lineInt_digits n).trans (if_neg h)
  rcases asInt_cases (encodeUtf8 (Nat.toDigits 10 n)) with ⟨i, hi, -⟩ | ⟨message, herror⟩
  · rw [hline] at hi
    cases hi
  · refine ⟨.protocol message, ?_⟩
    rcases hkind with rfl | rfl
    · rw [parse_cons (by decide) (findCrlf_digits n), lead, if_neg (by decide),
        if_neg (by decide), if_neg (by decide), if_pos rfl, herror]
      rfl
    · rw [parse_cons (by decide) (findCrlf_digits n), lead, if_neg (by decide),
        if_neg (by decide), if_neg (by decide), if_neg (by decide), if_pos rfl, herror]
      rfl

theorem parse_encodeArg_long {arg : Bytes} (h : ¬ arg.length < 2 ^ 63) (rest : Bytes) :
    ∃ e, parse (encodeArg arg ++ rest) = .error e := by
  have hbytes : encodeArg arg ++ rest =
      36 :: encodeUtf8 (Nat.toDigits 10 arg.length) ++ [13, 10] ++ (arg ++ [13, 10] ++ rest) := by
    rw [encodeArg]
    simp only [List.append_assoc]
  rw [hbytes]
  exact parse_unreadable (Or.inl rfl) h _

theorem parseItems_encodeArg (args : List Bytes) (rest : Bytes) :
    (∃ got, parseItems (args.flatMap encodeArg ++ rest) args.length = .ok (some got)) ↔
      ∀ arg ∈ args, arg.length < 2 ^ 63 := by
  induction args with
  | nil =>
    rw [List.flatMap_nil, List.length_nil, parseItems]
    simp
  | cons arg args ih =>
    rw [List.flatMap_cons, List.append_assoc, List.length_cons, List.forall_mem_cons, ← ih,
      parseItems]
    by_cases hshort : arg.length < 2 ^ 63
    · rw [parse_encodeArg hshort]
      dsimp only
      rw [List.drop_left]
      cases parseItems (args.flatMap encodeArg ++ rest) args.length with
      | error e => simp [Except.map]
      | ok got =>
        cases got with
        | none => simp [Except.map]
        | some got => simpa [Except.map] using hshort
    · obtain ⟨e, herror⟩ := parse_encodeArg_long hshort (args.flatMap encodeArg ++ rest)
      rw [herror]
      simp only [reduceCtorEq, exists_false, false_iff]
      intro hall
      exact hshort (hall.1)

/-- A command is read back as it was written where the parser takes its lengths. -/
theorem parse_encodeCommand_iff (args : List Bytes) (tail : Bytes) :
    parse (encodeCommand args ++ tail) =
        .ok (some (.array (args.map .bulk), (encodeCommand args).length)) ↔
      args.length ≤ maxItems ∧ ∀ arg ∈ args, arg.length < 2 ^ 63 := by
  have hbytes : encodeCommand args ++ tail = 42 :: encodeUtf8 (Nat.toDigits 10 args.length) ++
      [13, 10] ++ (args.flatMap encodeArg ++ tail) := by
    rw [encodeCommand]
    simp only [List.append_assoc]
  have hmax : maxItems < 2 ^ 63 := by decide
  by_cases hfew : args.length ≤ maxItems
  · have hline := (lineInt_digits args.length).trans (if_pos (by omega))
    have hcount := toInt_ofInt_natCast (n := args.length) (by omega)
    have hparse := parse_array (findCrlf_digits _) hline hcount (args.flatMap encodeArg ++ tail)
    rw [if_neg (by omega)] at hparse
    constructor
    · intro h
      refine ⟨hfew, (parseItems_encodeArg args tail).mp ?_⟩
      rw [hbytes, hparse] at h
      cases hrest : parseItems (args.flatMap encodeArg ++ tail) args.length with
      | error e =>
        rw [hrest] at h
        cases h
      | ok got =>
        cases got with
        | none =>
          rw [hrest] at h
          cases h
        | some got => exact ⟨got, rfl⟩
    · intro ⟨_, hshort⟩
      let items := args.map fun arg => (encodeArg arg, Value.bulk arg)
      have hbulk : ∀ item ∈ items, Whole item.1 item.2 := by
        intro item hitem
        obtain ⟨arg, harg, rfl⟩ := List.mem_map.mp hitem
        exact whole_encodeArg (hshort arg harg)
      have hlen : items.length = args.length := List.length_map _
      have hwhole := Whole.array (findCrlf_digits args.length) hline
        (hcount.trans (by rw [hlen])) (by omega) hbulk
      have hfst : items.flatMap Prod.fst = args.flatMap encodeArg := by
        rw [List.flatMap_map]
      have hsnd : items.map Prod.snd = args.map .bulk := by
        rw [List.map_map]
        rfl
      rw [hfst, hsnd] at hwhole
      exact parse_whole hwhole tail
  · constructor
    · intro h
      rw [hbytes] at h
      by_cases hread : args.length < 2 ^ 63
      · rw [parse_array (findCrlf_digits _) ((lineInt_digits args.length).trans (if_pos hread))
          (toInt_ofInt_natCast hread), if_pos (by omega)] at h
        cases h
      · obtain ⟨e, herror⟩ := parse_unreadable (Or.inr rfl) hread (args.flatMap encodeArg ++ tail)
        rw [herror] at h
        cases h
    · intro h
      exact absurd h.1 hfew

theorem parse_append {b : Bytes} {reply : Value × Nat} (h : parse b = .ok (some reply))
    (tail : Bytes) : parse (b ++ tail) = .ok (some reply) :=
  ((parse_settled b).some h).2 tail

/-- A strict beginning of a whole reply waits for the rest. -/
theorem parse_take {b : Bytes} {v : Value} {used k : Nat} (h : parse b = .ok (some (v, used)))
    (hk : k < used) : parse (b.take k) = .ok none := by
  have hused := ((parse_settled b).some h).1
  have hback : b.take k ++ b.drop k = b := List.take_append_drop k b
  cases hcut : parse (b.take k) with
  | error e =>
    have hwhole := (parse_settled (b.take k)).error hcut (b.drop k)
    rw [hback, h] at hwhole
    cases hwhole
  | ok got =>
    cases got with
    | none => rfl
    | some got =>
      obtain ⟨hlen, hext⟩ := (parse_settled (b.take k)).some hcut
      have hwhole := hext (b.drop k)
      rw [hback, h] at hwhole
      cases hwhole
      rw [List.length_take] at hlen
      omega

/-- The laws of the codec: a command is read back where the parser takes its lengths, an answer
stands when more arrives and none comes early, and the parser stays in range where the bytes do not
trip it. -/
theorem codec_laws (args : List Bytes) (b tail : Bytes) :
    (parse (encodeCommand args ++ tail) =
        .ok (some (.array (args.map .bulk), (encodeCommand args).length)) ↔
      args.length ≤ maxItems ∧ ∀ arg ∈ args, arg.length < 2 ^ 63) ∧
    (∀ reply, parse b = .ok (some reply) → parse (b ++ tail) = .ok (some reply)) ∧
    (∀ e, parse b = .error e → parse (b ++ tail) = .error e) ∧
    (∀ (v : Value) (used : Nat), parse b = .ok (some (v, used)) →
      used ≤ b.length ∧ ∀ k < used, parse (b.take k) = .ok none) ∧
    (parse b ≠ .error .panicked ↔ ¬ Trips b) := by
  refine ⟨parse_encodeCommand_iff args tail, ?_, ?_, ?_, not_congr parse_panicked_iff⟩
  · intro reply h
    exact parse_append h tail
  · intro e h
    exact (parse_settled b).error h tail
  · intro v used h
    exact ⟨((parse_settled b).some h).1, fun k hk => parse_take h hk⟩

/-- An empty line takes the parser out of range. -/
theorem not_codec_total : ¬ ∀ b : Bytes, parse b ≠ .error .panicked := by
  intro h
  exact h [13, 10] (parse_trips .emptyLine)

end Kernway.Redis
