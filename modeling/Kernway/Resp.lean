import Kernway.Crlf
import Kernway.Str

namespace Kernway.Redis

/-- A reply that is no error. -/
inductive Value
  | nil
  | simple (s : Text)
  | int (n : Int64)
  | bulk (bytes : Bytes)
  | array (items : List Value)

/-- What a command fails with. `panicked` is a slice out of range, or an array too large to
allocate. -/
inductive RedisError
  | io
  | server (message : Text)
  | protocol (message : Text)
  | closed
  | panicked

def encodeArg (arg : Bytes) : Bytes :=
  36 :: encodeUtf8 (Nat.toDigits 10 arg.length) ++ [13, 10] ++ arg ++ [13, 10]

/-- A command as an array of bulk strings. -/
def encodeCommand (args : List Bytes) : Bytes :=
  42 :: encodeUtf8 (Nat.toDigits 10 args.length) ++ [13, 10] ++ args.flatMap encodeArg

def asStr (b : Bytes) : Except RedisError Text :=
  match decodeUtf8 b with
  | some s => .ok s
  | none => .error (.protocol "reply is not UTF-8".toList)

def asInt (b : Bytes) : Except RedisError Int64 := do
  match parseI64 (← asStr b) with
  | some n => return n
  | none => throw (.protocol "reply is not an integer".toList)

/-- The first line of a reply: all of it, or what has to follow. -/
inductive Lead
  | value (v : Value)
  | bulk (len : Nat)
  | array (count : Nat)

/-- The longest array that `Vec::with_capacity` takes, an item being 32 bytes. -/
def maxItems : Nat := (2 ^ 63 - 1) / 32

def lead (kind : UInt8) (line : Bytes) : Except RedisError Lead :=
  if kind = 43 then (asStr line).map fun s => .value (.simple s)
  else if kind = 45 then (asStr line).bind fun s => .error (.server s)
  else if kind = 58 then (asInt line).map fun n => .value (.int n)
  else if kind = 36 then
    (asInt line).map fun len => if len < 0 then .value .nil else .bulk len.toInt.toNat
  else if kind = 42 then
    (asInt line).bind fun count =>
      if count < 0 then .ok (.value .nil)
      else if maxItems < count.toInt.toNat then .error .panicked
      else .ok (.array count.toInt.toNat)
  else .error (.protocol ("unknown reply type byte 0x".toList ++ Nat.toDigits 16 kind.toNat))

mutual

/-- One reply from the front of the bytes and how many it takes, `none` for a part of one. -/
def parse (b : Bytes) : Except RedisError (Option (Value × Nat)) :=
  match _h : findCrlf b with
  | none => .ok none
  | some crlf =>
    -- the content of an empty line starts behind its end
    if crlf = 0 then .error .panicked
    else
      let after := crlf + 2
      match lead (b.headD 0) ((b.take crlf).drop 1) with
      | .error e => .error e
      | .ok (.value v) => .ok (some (v, after))
      | .ok (.bulk len) =>
        if b.length < after + len + 2 then .ok none
        else .ok (some (.bulk ((b.drop after).take len), after + len + 2))
      | .ok (.array count) =>
        (parseItems (b.drop after) count).map (Option.map fun got => (.array got.1, after + got.2))
termination_by (b.length, 0)
decreasing_by
  have := findCrlf_bounds _h
  exact Prod.Lex.left _ _ (by rw [List.length_drop]; omega)

/-- The loop over the items of an array. -/
def parseItems (b : Bytes) (count : Nat) :
    Except RedisError (Option (List Value × Nat)) :=
  match count with
  | 0 => .ok (some ([], 0))
  | count + 1 =>
    match parse b with
    | .error e => .error e
    | .ok none => .ok none
    | .ok (some (v, used)) =>
      (parseItems (b.drop used) count).map (Option.map fun got => (v :: got.1, used + got.2))
termination_by (b.length, count + 1)
decreasing_by
  · exact Prod.Lex.right _ (Nat.succ_pos _)
  · rw [Prod.lex_def, List.length_drop]
    omega

end

theorem parse_none {b : Bytes} (h : findCrlf b = none) : parse b = .ok none := by
  rw [parse]
  split
  next => rfl
  next heq =>
    rw [h] at heq
    cases heq

theorem parse_line {b : Bytes} {crlf : Nat} (h : findCrlf b = some crlf) :
    parse b =
      if crlf = 0 then .error .panicked
      else match lead (b.headD 0) ((b.take crlf).drop 1) with
        | .error e => .error e
        | .ok (.value v) => .ok (some (v, crlf + 2))
        | .ok (.bulk len) =>
          if b.length < crlf + 2 + len + 2 then .ok none
          else .ok (some (.bulk ((b.drop (crlf + 2)).take len), crlf + 2 + len + 2))
        | .ok (.array count) =>
          (parseItems (b.drop (crlf + 2)) count).map
            (Option.map fun got => (.array got.1, crlf + 2 + got.2)) := by
  rw [parse]
  split
  next heq =>
    rw [h] at heq
    cases heq
  next heq =>
    rw [h] at heq
    cases heq
    rfl

/-- An answer takes no more bytes than there are, and stands when more arrive. -/
structure Settled {α : Type} (answer : Bytes → Except RedisError (Option (α × Nat)))
    (b : Bytes) : Prop where
  some : ∀ {v used}, answer b = .ok (some (v, used)) → used ≤ b.length ∧
    ∀ ext, answer (b ++ ext) = .ok (some (v, used))
  error : ∀ {e}, answer b = .error e → ∀ ext, answer (b ++ ext) = .error e

/-- An answer that goes on from the settled one of a later part is settled. -/
theorem Settled.shift {α β : Type} {answer : Bytes → Except RedisError (Option (α × Nat))}
    {answer' : Bytes → Except RedisError (Option (β × Nat))} {b b' : Bytes} {k : Nat} {f : α → β}
    (hs : Settled answer b') (hlen : k + b'.length ≤ b.length)
    (h : ∀ ext, answer' (b ++ ext) =
      (answer (b' ++ ext)).map (Option.map fun got => (f got.1, k + got.2))) :
    Settled answer' b := by
  have hhere := h []
  rw [List.append_nil, List.append_nil] at hhere
  constructor
  · intro v used hanswer
    rw [hhere] at hanswer
    cases hb : answer b' with
    | error e =>
      rw [hb] at hanswer
      cases hanswer
    | ok got =>
      cases got with
      | none =>
        rw [hb] at hanswer
        cases hanswer
      | some got =>
        rw [hb] at hanswer
        cases hanswer
        obtain ⟨hused, hext⟩ := hs.some hb
        exact ⟨by omega, fun ext => by rw [h, hext]; rfl⟩
  · intro e hanswer ext
    rw [hhere] at hanswer
    cases hb : answer b' with
    | error e' =>
      rw [hb] at hanswer
      cases hanswer
      rw [h, hs.error hb]
      rfl
    | ok got =>
      rw [hb] at hanswer
      cases hanswer

theorem settled_waiting {α : Type} {answer : Bytes → Except RedisError (Option (α × Nat))}
    {b : Bytes} (h : answer b = .ok none) : Settled answer b := by
  constructor
  · intro v used hanswer
    rw [h] at hanswer
    cases hanswer
  · intro e hanswer
    rw [h] at hanswer
    cases hanswer

theorem settled_error {α : Type} {answer : Bytes → Except RedisError (Option (α × Nat))}
    {b : Bytes} {e : RedisError} (h : ∀ ext, answer (b ++ ext) = .error e) :
    Settled answer b := by
  have hhere := h []
  rw [List.append_nil] at hhere
  constructor
  · intro v used hanswer
    rw [hhere] at hanswer
    cases hanswer
  · intro e' hanswer ext
    rw [h, ← hhere, hanswer]

theorem settled_some {α : Type} {answer : Bytes → Except RedisError (Option (α × Nat))}
    {b : Bytes} {v : α} {used : Nat} (hlen : used ≤ b.length)
    (h : ∀ ext, answer (b ++ ext) = .ok (some (v, used))) : Settled answer b := by
  have hhere := h []
  rw [List.append_nil] at hhere
  constructor
  · intro v' used' hanswer
    rw [hhere] at hanswer
    cases hanswer
    exact ⟨hlen, h⟩
  · intro e hanswer
    rw [hhere] at hanswer
    cases hanswer

theorem parseItems_settled {n : Nat} (hparse : ∀ b : Bytes, b.length ≤ n → Settled parse b)
    {b : Bytes} (hb : b.length ≤ n) (count : Nat) :
    Settled (fun b => parseItems b count) b := by
  induction count generalizing b with
  | zero => exact settled_some (Nat.zero_le _) fun ext => by rw [parseItems]
  | succ count ih =>
    cases hfirst : parse b with
    | error e =>
      refine settled_error (e := e) fun ext => ?_
      rw [parseItems, (hparse b hb).error hfirst]
    | ok first =>
      cases first with
      | none =>
        refine settled_waiting ?_
        rw [parseItems, hfirst]
      | some first =>
        obtain ⟨v, used⟩ := first
        obtain ⟨hused, hext⟩ := (hparse b hb).some hfirst
        have hrest := ih (b := b.drop used) (by rw [List.length_drop]; omega)
        refine hrest.shift (k := used) (f := (v :: ·)) ?_ fun ext => ?_
        · rw [List.length_drop]
          omega
        · rw [parseItems, hext]
          dsimp only
          rw [List.drop_append_of_le_length hused]

theorem parse_settled (b : Bytes) : Settled parse b := by
  induction hn : b.length using Nat.strongRecOn generalizing b with
  | _ n ih =>
    subst hn
    cases hcrlf : findCrlf b with
    | none => exact settled_waiting (parse_none hcrlf)
    | some crlf =>
      have hbounds := findCrlf_bounds hcrlf
      have hline : ∀ ext, parse (b ++ ext) = _ := fun ext => parse_line (findCrlf_append hcrlf ext)
      have htake : ∀ ext, (b ++ ext).take crlf = b.take crlf := fun ext =>
        List.take_append_of_le_length (by omega)
      have hhead : ∀ ext, (b ++ ext).headD 0 = b.headD 0 := by
        intro ext
        cases b with
        | nil => cases hcrlf
        | cons c b => rfl
      simp only [htake, hhead] at hline
      by_cases hzero : crlf = 0
      · refine settled_error (e := .panicked) fun ext => ?_
        rw [hline, if_pos hzero]
      · simp only [if_neg hzero] at hline
        cases hlead : lead (b.headD 0) ((b.take crlf).drop 1) with
        | error e =>
          refine settled_error (e := e) fun ext => ?_
          rw [hline, hlead]
        | ok first =>
          simp only [hlead] at hline
          cases first with
          | value v => exact settled_some hbounds hline
          | bulk len =>
            by_cases hshort : b.length < crlf + 2 + len + 2
            · refine settled_waiting ?_
              have hhere := hline []
              rw [List.append_nil] at hhere
              rw [hhere]
              exact if_pos hshort
            · have hlong : crlf + 2 + len + 2 ≤ b.length := by omega
              let v := Value.bulk ((b.drop (crlf + 2)).take len)
              have hparse : ∀ ext, parse (b ++ ext) = .ok (some (v, crlf + 2 + len + 2)) := by
                intro ext
                refine (hline ext).trans ((if_neg ?_).trans ?_)
                · rw [List.length_append]
                  omega
                · rw [List.drop_append_of_le_length hbounds, List.take_append_of_le_length]
                  rw [List.length_drop]
                  omega
              exact settled_some hlong hparse
          | array count =>
            have hitems := parseItems_settled (n := (b.drop (crlf + 2)).length)
              (fun b' hb' => ih b'.length (by rw [List.length_drop] at hb'; omega) b' rfl)
              (Nat.le_refl _) count
            refine hitems.shift (k := crlf + 2) (f := Value.array) ?_ fun ext => ?_
            · rw [List.length_drop]
              omega
            · rw [hline, List.drop_append_of_le_length hbounds]

/-- The items of an array, or the first error among them. -/
def collect : List (Except RedisError Value) → Except RedisError (List Value)
  | [] => .ok []
  | .error e :: _ => .error e
  | .ok v :: outcomes => (collect outcomes).map (v :: ·)

def lineInt (line : Bytes) : Option Int64 := (decodeUtf8 line).bind parseI64

/-- The bytes are one reply of the protocol, which a command hears as the given outcome. -/
inductive IsReply : Bytes → Except RedisError Value → Prop
  | simple {line : Bytes} {s : Text} : findCrlf line = none → decodeUtf8 line = some s →
      IsReply (43 :: line ++ [13, 10]) (.ok (.simple s))
  | error {line : Bytes} {s : Text} : findCrlf line = none → decodeUtf8 line = some s →
      IsReply (45 :: line ++ [13, 10]) (.error (.server s))
  | int {line : Bytes} {n : Int64} : findCrlf line = none → lineInt line = some n →
      IsReply (58 :: line ++ [13, 10]) (.ok (.int n))
  | nil {kind : UInt8} {line : Bytes} {n : Int64} : kind = 36 ∨ kind = 42 →
      findCrlf line = none → lineInt line = some n → n < 0 →
      IsReply (kind :: line ++ [13, 10]) (.ok .nil)
  | bulk {line bytes : Bytes} {n : Int64} : findCrlf line = none → lineInt line = some n →
      n.toInt = bytes.length →
      IsReply (36 :: line ++ [13, 10] ++ (bytes ++ [13, 10])) (.ok (.bulk bytes))
  | array {line : Bytes} {n : Int64} {items : List (Bytes × Except RedisError Value)} :
      findCrlf line = none → lineInt line = some n → n.toInt = items.length →
      items.length ≤ maxItems → (∀ item ∈ items, IsReply item.1 item.2) →
      IsReply (42 :: line ++ [13, 10] ++ items.flatMap Prod.fst)
        ((collect (items.map Prod.snd)).map .array)

theorem asStr_eq {line : Bytes} {s : Text} (h : decodeUtf8 line = some s) :
    asStr line = .ok s := by
  rw [asStr, h]

theorem asInt_eq {line : Bytes} {n : Int64} (h : lineInt line = some n) : asInt line = .ok n := by
  obtain ⟨s, hs, hn⟩ := Option.bind_eq_some_iff.mp h
  simp only [asInt, asStr_eq hs, hn, bind, Except.bind, pure, Except.pure]

theorem toInt_natCast {n : Int64} {k : Nat} (h : n.toInt = k) : ¬ n < 0 ∧ n.toInt.toNat = k := by
  rw [Int64.lt_iff_toInt_lt, h]
  exact ⟨Int.not_lt.mpr (Int.natCast_nonneg k), rfl⟩

theorem parse_front {kind : UInt8} {line : Bytes} (hfree : findCrlf (kind :: line) = none)
    (rest : Bytes) : parse (kind :: line ++ [13, 10] ++ rest) =
      match lead kind line with
      | .error e => .error e
      | .ok (.value v) => .ok (some (v, line.length + 3))
      | .ok (.bulk len) =>
        if rest.length < len + 2 then .ok none
        else .ok (some (.bulk (rest.take len), line.length + 3 + len + 2))
      | .ok (.array count) =>
        (parseItems rest count).map
          (Option.map fun got => (.array got.1, line.length + 3 + got.2)) := by
  have hcrlf : findCrlf (kind :: line ++ [13, 10] ++ rest) = some (line.length + 1) := by
    rw [List.append_assoc]
    exact findCrlf_line hfree rest
  have htake : (kind :: line ++ [13, 10] ++ rest).take (line.length + 1) = kind :: line := by
    rw [List.append_assoc]
    exact List.take_left' rfl
  have hdrop : (kind :: line ++ [13, 10] ++ rest).drop (line.length + 3) = rest :=
    List.drop_left' (by simp)
  have hlen : (kind :: line ++ [13, 10] ++ rest).length = line.length + 3 + rest.length := by
    simp only [List.length_append, List.length_cons, List.length_nil]
  have hhead : (kind :: line ++ [13, 10] ++ rest).headD 0 = kind := rfl
  rw [parse_line hcrlf, if_neg (Nat.succ_ne_zero _), htake, hdrop, hlen, hhead,
    List.drop_succ_cons, List.drop_zero]
  cases lead kind line with
  | error e => rfl
  | ok first =>
    cases first with
    | value v => rfl
    | bulk len =>
      refine if_congr ?_ rfl rfl
      omega
    | array count => rfl

theorem findCrlf_cons {kind : UInt8} {line : Bytes} (hkind : kind ≠ 13)
    (hline : findCrlf line = none) : findCrlf (kind :: line) = none := by
  rw [findCrlf, if_neg fun h => hkind h.1, hline]
  rfl

theorem parse_cons {kind : UInt8} {line : Bytes} (hkind : kind ≠ 13) (hline : findCrlf line = none)
    (rest : Bytes) : parse (kind :: line ++ [13, 10] ++ rest) =
      match lead kind line with
      | .error e => .error e
      | .ok (.value v) => .ok (some (v, line.length + 3))
      | .ok (.bulk len) =>
        if rest.length < len + 2 then .ok none
        else .ok (some (.bulk (rest.take len), line.length + 3 + len + 2))
      | .ok (.array count) =>
        (parseItems rest count).map
          (Option.map fun got => (.array got.1, line.length + 3 + got.2)) :=
  parse_front (findCrlf_cons hkind hline) rest

theorem parseItems_replies {items : List (Bytes × Except RedisError Value)}
    (h : ∀ item ∈ items, ∀ rest,
      parse (item.1 ++ rest) = item.2.map fun v => some (v, item.1.length)) (rest : Bytes) :
    parseItems (items.flatMap Prod.fst ++ rest) items.length =
      (collect (items.map Prod.snd)).map fun vs => some (vs, (items.flatMap Prod.fst).length) := by
  induction items with
  | nil => exact parseItems.eq_1 _
  | cons item items ih =>
    obtain ⟨bytes, outcome⟩ := item
    rw [List.forall_mem_cons] at h
    rw [List.flatMap_cons, List.length_cons, List.append_assoc, parseItems, h.1]
    cases outcome with
    | error e => rfl
    | ok v =>
      simp only [Except.map, List.drop_left, ih h.2, List.map_cons, collect]
      cases collect (items.map Prod.snd) with
      | error e => rfl
      | ok vs => simp

/-- A reply is parsed as what it is, whatever follows it. -/
theorem parse_reply {bytes : Bytes} {outcome : Except RedisError Value}
    (h : IsReply bytes outcome) (rest : Bytes) :
    parse (bytes ++ rest) = outcome.map fun v => some (v, bytes.length) := by
  induction h generalizing rest with
  | simple hline hs =>
    rw [parse_cons (by decide) hline, lead, if_pos rfl, asStr_eq hs]
    simp [Except.map]
  | error hline hs =>
    rw [parse_cons (by decide) hline, lead, if_neg (by decide), if_pos rfl, asStr_eq hs]
    rfl
  | int hline hn =>
    rw [parse_cons (by decide) hline, lead, if_neg (by decide), if_neg (by decide), if_pos rfl,
      asInt_eq hn]
    simp [Except.map]
  | nil hkind hline hn hneg =>
    rcases hkind with rfl | rfl
    · rw [parse_cons (by decide) hline, lead, if_neg (by decide), if_neg (by decide),
        if_neg (by decide), if_pos rfl, asInt_eq hn, Except.map, if_pos hneg]
      simp [Except.map]
    · rw [parse_cons (by decide) hline, lead, if_neg (by decide), if_neg (by decide),
        if_neg (by decide), if_neg (by decide), if_pos rfl, asInt_eq hn, Except.bind, if_pos hneg]
      simp [Except.map]
  | bulk hline hn hlen =>
    rw [List.append_assoc, parse_cons (by decide) hline, lead, if_neg (by decide),
      if_neg (by decide), if_neg (by decide), if_pos rfl, asInt_eq hn, Except.map,
      if_neg (toInt_natCast hlen).1, (toInt_natCast hlen).2]
    dsimp only
    rw [if_neg, List.append_assoc, List.take_left' rfl]
    · simp [Except.map]
      omega
    · simp
  | array hline hn hlen hmax hitems ih =>
    rw [List.append_assoc, parse_cons (by decide) hline, lead, if_neg (by decide),
      if_neg (by decide), if_neg (by decide), if_neg (by decide), if_pos rfl, asInt_eq hn,
      Except.bind, if_neg (toInt_natCast hlen).1, (toInt_natCast hlen).2,
      if_neg (Nat.not_lt.mpr hmax)]
    dsimp only
    rw [parseItems_replies ih]
    cases collect _ with
    | error e => rfl
    | ok vs =>
      simp only [Except.map, Option.map_some, List.length_append, List.length_cons,
        List.length_nil]

end Kernway.Redis
