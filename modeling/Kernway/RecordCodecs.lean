import Kernway.ActiveVisitors
import Kernway.StreamReader
import Kernway.RedisSessions

namespace Kernway

open StreamReader

/-- A result, or the panic of an index or a length that is out of range. -/
abbrev Checked := Except Unit

/-- `split_at`. -/
def splitAt (b : Bytes) (mid : Nat) : Checked (Bytes × Bytes) :=
  if mid ≤ b.length then .ok (b.take mid, b.drop mid) else .error ()

/-- `&b[start..stop]`. -/
def sliceOf (b : Bytes) (start stop : Nat) : Checked Bytes :=
  if start ≤ stop ∧ stop ≤ b.length then .ok ((b.drop start).take (stop - start)) else .error ()

/-- `try_into().unwrap()`, to an array of `n` bytes. -/
def arrayOf (n : Nat) (b : Bytes) : Checked Bytes := if b.length = n then .ok b else .error ()

/-- `b.get(start..stop)`. -/
def getRange (b : Bytes) (start stop : Nat) : Option Bytes :=
  if start ≤ stop ∧ stop ≤ b.length then some ((b.drop start).take (stop - start)) else none

namespace FileSessions

def takeU32 (b : Bytes) : Checked (Option (Nat × Bytes)) :=
  if b.length < 4 then .ok none
  else do
    let (head, tail) ← splitAt b 4
    let head ← arrayOf 4 head
    return some (fromLe head, tail)

def takeU64 (b : Bytes) : Checked (Option (UInt64 × Bytes)) :=
  if b.length < 8 then .ok none
  else do
    let (head, tail) ← splitAt b 8
    let head ← arrayOf 8 head
    return some (.ofNat (fromLe head), tail)

def takeStr (b : Bytes) : Checked (Option (Text × Bytes)) := do
  let some (len, b) ← takeU32 b | return none
  if b.length < len then return none
  let (head, tail) ← splitAt b len
  return (decodeUtf8 head).map fun s => (s, tail)

def decodeInsert (b : Bytes) : Checked (Option (Text × SessionRecord)) := do
  let some (sid, b) ← takeStr b | return none
  let some (user, b) ← takeStr b | return none
  let some (created, b) ← takeU64 b | return none
  let some (lastSeen, b) ← takeU64 b | return none
  let some (label, _) ← takeStr b | return none
  return some (sid, ⟨user, created, lastSeen, label⟩)

/-- The insert that `apply` makes of a record. -/
def insertOf : Bytes → Checked (Option (Text × SessionRecord))
  | 1 :: payload => decodeInsert payload
  | _ => .ok none

/-- `framed`, from a position of the blob. -/
def framedFrom (blob : Bytes) (pos : Nat) : Checked (List Bytes) :=
  if _h : blob.length < pos + 4 then .ok []
  else do
    let head ← sliceOf blob pos (pos + 4)
    let head ← arrayOf 4 head
    let stop := pos + 4 + fromLe head
    if stop ≤ blob.length then
      let record ← sliceOf blob (pos + 4) stop
      let records ← framedFrom blob stop
      return record :: records
    else return []
termination_by blob.length - pos
decreasing_by omega

end FileSessions

/-- `take_u32` of the Redis store and of the activity list, which read at a position. The sum that
the source checks for overflow would be past the end of a slice. -/
def takeU32At (b : Bytes) (pos : Nat) : Option (Nat × Nat) := do
  let head ← getRange b pos (pos + 4)
  return (fromLe head, pos + 4)

def takeU64At (b : Bytes) (pos : Nat) : Option (UInt64 × Nat) := do
  let head ← getRange b pos (pos + 8)
  return (.ofNat (fromLe head), pos + 8)

def takeStrAt (b : Bytes) (pos : Nat) : Option (Text × Nat) := do
  let (len, pos) ← takeU32At b pos
  let head ← getRange b pos (pos + len)
  let s ← decodeUtf8 head
  return (s, pos + len)

def Redis.decodeRecordAt (b : Bytes) : Option SessionRecord := do
  let (user, pos) ← takeStrAt b 0
  let (created, pos) ← takeU64At b pos
  let (lastSeen, pos) ← takeU64At b pos
  let (label, _) ← takeStrAt b pos
  return ⟨user, created, lastSeen, label⟩

namespace ActiveVisitor

def putOpt (s : Option Text) : Bytes := (if s.isSome then 1 else 0) :: putStr (s.getD [])

def takeOptAt (b : Bytes) (pos : Nat) : Option (Option Text × Nat) := do
  let present ← b[pos]?
  let (s, pos) ← takeStrAt b (pos + 1)
  return (if present ≠ 0 then some s else none, pos)

/-- `encode_visitor`. -/
def encode (v : ActiveVisitor) : Bytes :=
  putStr v.id ++ ((if v.authenticated then 1 else 0) :: (putStr ((v.ip.map IpAddr.display).getD []) ++
    (putOpt v.userAgent ++ (putStr v.path ++ (putStr v.method ++ toLe 8 v.lastSeen)))))

/-- `decode_visitor`. -/
def decode (b : Bytes) : Option ActiveVisitor := do
  let (id, pos) ← takeStrAt b 0
  let authenticated ← b[pos]?
  let (ip, pos) ← takeStrAt b (pos + 1)
  let (userAgent, pos) ← takeOptAt b pos
  let (path, pos) ← takeStrAt b pos
  let (method, pos) ← takeStrAt b pos
  let (lastSeen, _) ← takeU64At b pos
  return ⟨id, decide (authenticated ≠ 0), if ip = [] then none else IpAddr.parse ip, userAgent, path,
    method, lastSeen.toNat⟩

end ActiveVisitor

/-- The string's length fits the four bytes in front of it. -/
def Short (s : Text) : Prop := (encodeUtf8 s).length < 2 ^ 32

instance (s : Text) : Decidable (Short s) := inferInstanceAs (Decidable (_ < 2 ^ 32))

structure SessionRecord.Short (r : SessionRecord) : Prop where
  user : Kernway.Short r.user
  label : Kernway.Short r.meta

structure ActiveVisitor.Short (v : ActiveVisitor) : Prop where
  id : Kernway.Short v.id
  userAgent : ∀ s ∈ v.userAgent, Kernway.Short s
  path : Kernway.Short v.path
  method : Kernway.Short v.method
  lastSeen : v.lastSeen < 2 ^ 64

section Address

theorem length_displayV4 (bits : BitVec 32) : (IpAddr.displayV4 bits).length ≤ 15 := by
  have hlength := length_digitsIn 256 4 bits.toNat
  have hsmall : ∀ d ∈ digitsIn 256 4 bits.toNat, (Nat.toDigits 10 d).length ≤ 3 := by
    intro d hd
    have hlt := lt_of_mem_digitsIn (by decide) hd
    exact (Nat.length_toDigits_le_iff (by decide) (by decide)).mpr (by omega)
  obtain ⟨a, b, c, d, hdigits⟩ := List.length_eq_four.mp hlength
  unfold IpAddr.displayV4
  rw [hdigits] at hsmall ⊢
  simp only [List.mem_cons, List.not_mem_nil, or_false, forall_eq_or_imp, forall_eq] at hsmall
  simp only [List.map_cons, List.map_nil, List.intercalate, List.intersperse, List.flatten_cons,
    List.flatten_nil, List.length_append, List.length_cons, List.length_nil]
  omega

theorem length_fmtSubslice {groups : List Nat} (h : ∀ g ∈ groups, g < 65536) :
    (IpAddr.fmtSubslice groups).length ≤ 5 * groups.length := by
  have hgroup : ∀ {g}, g < 65536 → (Nat.toDigits 16 g).length ≤ 4 := fun hg =>
    (Nat.length_toDigits_le_iff (by decide) (by decide)).mpr hg
  have htail : ∀ tail : List Nat, (∀ g ∈ tail, g < 65536) →
      (tail.flatMap fun g => ':' :: Nat.toDigits 16 g).length ≤ 5 * tail.length := by
    intro tail htail
    induction tail with
    | nil => exact Nat.le_refl 0
    | cons g tail ih =>
      have hg := hgroup (htail g (List.mem_cons_self ..))
      have hrest := ih fun x hx => htail x (List.mem_cons_of_mem g hx)
      rw [List.flatMap_cons, List.length_append, List.length_cons, List.length_cons]
      omega
  cases groups with
  | nil => exact Nat.le_refl 0
  | cons first tail =>
    have hfirst := hgroup (h first (List.mem_cons_self ..))
    have hrest := htail tail fun x hx => h x (List.mem_cons_of_mem first hx)
    rw [IpAddr.fmtSubslice, List.length_append, List.length_cons]
    omega

theorem length_display (ip : IpAddr) : ip.display.length ≤ 50 := by
  cases ip with
  | v4 bits => exact (length_displayV4 bits).trans (by decide)
  | v6 bits =>
    obtain ⟨segments, ⟨hlength, hsmall, -⟩, hcases⟩ := IpAddr.displayV6_cases bits
    rw [IpAddr.display]
    rcases hcases with ⟨low, -, htext⟩ | ⟨before, len, after, -, hsegments, htext⟩ | htext
    · have hlow := length_displayV4 low
      have hmapped : (Nat.toDigits 16 65535).length ≤ 4 :=
        (Nat.length_toDigits_le_iff (by decide) (by decide)).mpr (by decide)
      rw [htext, List.length_cons, List.length_cons, List.length_append, List.length_cons]
      omega
    · rw [hsegments] at hlength hsmall
      simp only [List.length_append] at hlength
      have hbefore := length_fmtSubslice fun g (hg : g ∈ before) => hsmall g (by simp [hg])
      have hafter := length_fmtSubslice fun g (hg : g ∈ after) => hsmall g (by simp [hg])
      rw [htext, List.length_append, List.length_cons, List.length_cons]
      omega
    · have hall := length_fmtSubslice hsmall
      rw [htext]
      omega

theorem length_encodeUtf8_le (s : Text) : (encodeUtf8 s).length ≤ 4 * s.length := by
  induction s with
  | nil => exact Nat.le_refl 0
  | cons c s ih =>
    have hsize : (String.utf8EncodeChar c).length ≤ 4 := by
      rw [String.length_utf8EncodeChar]
      exact Char.utf8Size_le_four c
    rw [encodeUtf8_cons, List.length_append, List.length_cons]
    omega

theorem short_display (ip : IpAddr) : Short ip.display := by
  have hlength := length_display ip
  have hbytes := length_encodeUtf8_le ip.display
  unfold Short
  omega

end Address

section Readers

def u32 : StreamReader UInt8 Nat := do return fromLe (← take 4)

def u64 : StreamReader UInt8 UInt64 := do return .ofNat (fromLe (← take 8))

def str : StreamReader UInt8 Text := do
  let len ← u32
  let head ← take len
  given (decodeUtf8 head)

def opt : StreamReader UInt8 (Option Text) := do
  let present ← item
  let s ← str
  return if present ≠ 0 then some s else none

def sessionRecord : StreamReader UInt8 SessionRecord := do
  let user ← str
  let created ← u64
  let lastSeen ← u64
  let label ← str
  return ⟨user, created, lastSeen, label⟩

def insert : StreamReader UInt8 (Text × SessionRecord) := do
  let sid ← str
  let r ← sessionRecord
  return (sid, r)

def visitor : StreamReader UInt8 ActiveVisitor := do
  let id ← str
  let authenticated ← item
  let ip ← str
  let userAgent ← opt
  let path ← str
  let method ← str
  let lastSeen ← u64
  return ⟨id, decide (authenticated ≠ 0), if ip = [] then none else IpAddr.parse ip, userAgent, path,
    method, lastSeen.toNat⟩

theorem u32_eq : u32 = takeU32 := by
  funext b
  show (take 4 b).bind _ = _
  unfold take takeU32
  split <;> rfl

theorem u64_eq : u64 = takeU64 := by
  funext b
  show (take 8 b).bind _ = _
  unfold take takeU64
  split <;> rfl

theorem str_eq : str = takeStr := by
  funext b
  show (u32 b).bind _ = _
  rw [u32_eq]
  unfold takeStr
  cases takeU32 b with
  | none => rfl
  | some p =>
    show (take p.1 p.2).bind _ = if p.2.length < p.1 then none else _
    unfold take
    split
    next => rfl
    next =>
      show (decodeUtf8 (p.2.take p.1)).map _ = (decodeUtf8 (p.2.take p.1)).bind _
      cases decodeUtf8 (p.2.take p.1) <;> rfl

theorem local_u32 : Local u32 := (local_take 4).bind fun _ => Local.pure _

theorem local_u64 : Local u64 := (local_take 8).bind fun _ => Local.pure _

theorem local_str : Local str :=
  local_u32.bind fun len => (local_take len).bind fun _ => local_given _

theorem local_opt : Local opt := local_item.bind fun _ => local_str.bind fun _ => Local.pure _

theorem local_sessionRecord : Local sessionRecord :=
  local_str.bind fun _ => local_u64.bind fun _ => local_u64.bind fun _ => local_str.bind fun _ =>
    Local.pure _

theorem local_insert : Local insert :=
  local_str.bind fun _ => local_sessionRecord.bind fun _ => Local.pure _

theorem local_visitor : Local visitor :=
  local_str.bind fun _ => local_item.bind fun _ => local_str.bind fun _ => local_opt.bind fun _ =>
    local_str.bind fun _ => local_str.bind fun _ => local_u64.bind fun _ => Local.pure _

theorem reads_str {s : Text} (h : Short s) : Reads str (putStr s) s := by
  intro rest
  rw [str_eq]
  exact takeStr_putStr h rest

theorem reads_u64 (n : UInt64) : Reads u64 (putU64 n) n := by
  intro rest
  rw [u64_eq]
  exact takeU64_putU64 n rest

theorem reads_item (b : UInt8) : Reads item [b] b := fun _ => rfl

theorem reads_opt {s : Option Text} (h : ∀ t ∈ s, Short t) :
    Reads opt (ActiveVisitor.putOpt s) s := by
  cases s with
  | none =>
    have hnil : Short [] := Nat.two_pow_pos 32
    refine Reads.bind (reads_item 0) ?_
    exact (reads_str hnil).last fun _ => none
  | some t =>
    refine Reads.bind (reads_item 1) ?_
    exact (reads_str (h t rfl)).last some

theorem reads_sessionRecord {r : SessionRecord} (h : r.Short) :
    Reads sessionRecord (Redis.encodeRecord r) r := by
  refine Reads.bind (reads_str h.user) ?_
  refine Reads.bind (reads_u64 r.created) ?_
  refine Reads.bind (reads_u64 r.lastSeen) ?_
  exact (reads_str h.label).last fun label => SessionRecord.mk r.user r.created r.lastSeen label

theorem reads_insert {sid : Text} {r : SessionRecord} (hsid : Short sid) (h : r.Short) :
    Reads insert (putStr sid ++ Redis.encodeRecord r) (sid, r) := by
  refine Reads.bind (reads_str hsid) ?_
  exact (reads_sessionRecord h).last fun r => (sid, r)

theorem display_ne_nil (ip : IpAddr) : ip.display ≠ [] := by
  intro h
  have hparse := IpAddr.parse_display ip
  rw [h] at hparse
  cases hparse

theorem reads_visitor {v : ActiveVisitor} (h : v.Short) : Reads visitor v.encode v := by
  have hip : Short ((v.ip.map IpAddr.display).getD []) := by
    cases v.ip with
    | none => exact Nat.two_pow_pos 32
    | some ip => exact short_display ip
  have haddress : (if (v.ip.map IpAddr.display).getD [] = [] then none
      else IpAddr.parse ((v.ip.map IpAddr.display).getD [])) = v.ip := by
    cases v.ip with
    | none => rfl
    | some ip =>
      rw [Option.map_some, Option.getD_some, if_neg (display_ne_nil ip), IpAddr.parse_display]
  have hauthenticated : decide ((if v.authenticated then 1 else 0 : UInt8) ≠ 0) = v.authenticated := by
    cases v.authenticated <;> rfl
  have htime : (UInt64.ofNat v.lastSeen).toNat = v.lastSeen := UInt64.toNat_ofNat_of_lt' h.lastSeen
  have hlast : Reads u64 (toLe 8 v.lastSeen) (.ofNat v.lastSeen) := by
    have hu64 := reads_u64 (.ofNat v.lastSeen)
    unfold putU64 at hu64
    rwa [htime] at hu64
  have hread : Reads visitor v.encode (ActiveVisitor.mk v.id
      (decide ((if v.authenticated then 1 else 0 : UInt8) ≠ 0))
      (if (v.ip.map IpAddr.display).getD [] = [] then none
        else IpAddr.parse ((v.ip.map IpAddr.display).getD []))
      v.userAgent v.path v.method (UInt64.ofNat v.lastSeen).toNat) := by
    refine Reads.bind (reads_str h.id) ?_
    refine Reads.bind (reads_item (if v.authenticated then 1 else 0)) ?_
    refine Reads.bind (reads_str hip) ?_
    refine Reads.bind (reads_opt h.userAgent) ?_
    refine Reads.bind (reads_str h.path) ?_
    refine Reads.bind (reads_str h.method) ?_
    exact hlast.last _
  rw [hauthenticated, haddress, htime] at hread
  exact hread

end Readers

namespace FileSessions

theorem splitAt_of_le {b : Bytes} {n : Nat} (h : n ≤ b.length) :
    splitAt b n = .ok (b.take n, b.drop n) := if_pos h

theorem arrayOf_take {b : Bytes} {n : Nat} (h : n ≤ b.length) :
    arrayOf n (b.take n) = .ok (b.take n) := if_pos (List.length_take_of_le h)

theorem takeU32_eq (b : Bytes) : takeU32 b = .ok (u32 b) := by
  rw [u32_eq]
  unfold takeU32 Kernway.takeU32
  by_cases hlen : b.length < 4
  · rw [if_pos hlen, if_pos hlen]
  · have harray := arrayOf_take (Nat.le_of_not_lt hlen)
    rw [if_neg hlen, if_neg hlen, splitAt_of_le (Nat.le_of_not_lt hlen)]
    show (arrayOf 4 (b.take 4)).bind _ = _
    rw [harray]
    rfl

theorem takeU64_eq (b : Bytes) : takeU64 b = .ok (u64 b) := by
  rw [u64_eq]
  unfold takeU64 Kernway.takeU64
  by_cases hlen : b.length < 8
  · rw [if_pos hlen, if_pos hlen]
  · have harray := arrayOf_take (Nat.le_of_not_lt hlen)
    rw [if_neg hlen, if_neg hlen, splitAt_of_le (Nat.le_of_not_lt hlen)]
    show (arrayOf 8 (b.take 8)).bind _ = _
    rw [harray]
    rfl

theorem takeStr_eq (b : Bytes) : takeStr b = .ok (str b) := by
  unfold takeStr
  rw [takeU32_eq]
  show _ = Except.ok ((u32 b).bind _)
  cases u32 b with
  | none => rfl
  | some p =>
    obtain ⟨len, b⟩ := p
    show (if b.length < len then Except.ok none else _) = Except.ok ((take len b).bind _)
    unfold take
    by_cases hlen : b.length < len
    · rw [if_pos hlen, if_pos hlen]
      rfl
    · rw [if_neg hlen, if_neg hlen]
      show (splitAt b len).bind _ = _
      rw [splitAt_of_le (Nat.le_of_not_lt hlen)]
      rfl

/-- No index of `decode_insert` is out of range. -/
theorem decodeInsert_eq (b : Bytes) : decodeInsert b = .ok ((insert b).map Prod.fst) := by
  unfold decodeInsert
  rw [takeStr_eq]
  show _ = Except.ok (((str b).bind _).map _)
  cases str b with
  | none => rfl
  | some sid =>
    show (takeStr sid.2).bind _ = Except.ok ((((str sid.2).bind _).bind _).map _)
    rw [takeStr_eq]
    cases str sid.2 with
    | none => rfl
    | some user =>
      show (takeU64 user.2).bind _ = Except.ok ((((u64 user.2).bind _).bind _).map _)
      rw [takeU64_eq]
      cases u64 user.2 with
      | none => rfl
      | some created =>
        show (takeU64 created.2).bind _ = Except.ok ((((u64 created.2).bind _).bind _).map _)
        rw [takeU64_eq]
        cases u64 created.2 with
        | none => rfl
        | some lastSeen =>
          show (takeStr lastSeen.2).bind _ = Except.ok ((((str lastSeen.2).bind _).bind _).map _)
          rw [takeStr_eq]
          cases str lastSeen.2 <;> rfl

theorem framedFrom_eq (blob : Bytes) (pos : Nat) :
    framedFrom blob pos = .ok (readFrames (blob.drop pos)) := by
  induction hn : blob.length - pos using Nat.strong_induction_on generalizing pos with
  | _ n ih =>
    subst hn
    rw [framedFrom]
    by_cases hend : blob.length < pos + 4
    · have hnone : takeFrame (blob.drop pos) = none := by
        unfold takeFrame
        exact if_pos (by rw [List.length_drop]; omega)
      rw [dif_pos hend, readFrames_none hnone]
    · have hhead : sliceOf blob pos (pos + 4) = .ok ((blob.drop pos).take 4) := by
        unfold sliceOf
        rw [if_pos ⟨Nat.le_add_right _ _, Nat.le_of_not_lt hend⟩, Nat.add_sub_cancel_left]
      have harray : arrayOf 4 ((blob.drop pos).take 4) = .ok ((blob.drop pos).take 4) := by
        apply if_pos
        rw [List.length_take, List.length_drop]
        omega
      rw [dif_neg hend, hhead]
      show (arrayOf 4 ((blob.drop pos).take 4)).bind _ = _
      rw [harray]
      show (if pos + 4 + fromLe ((blob.drop pos).take 4) ≤ blob.length then _ else Except.ok []) = _
      by_cases hfits : pos + 4 + fromLe ((blob.drop pos).take 4) ≤ blob.length
      · have hrecord : sliceOf blob (pos + 4) (pos + 4 + fromLe ((blob.drop pos).take 4)) =
            .ok (((blob.drop pos).drop 4).take (fromLe ((blob.drop pos).take 4))) := by
          unfold sliceOf
          rw [if_pos ⟨Nat.le_add_right _ _, hfits⟩, Nat.add_sub_cancel_left, List.drop_drop]
        have hframe : takeFrame (blob.drop pos) =
            some (((blob.drop pos).drop 4).take (fromLe ((blob.drop pos).take 4)),
              blob.drop (pos + 4 + fromLe ((blob.drop pos).take 4))) := by
          unfold takeFrame
          rw [if_neg (by rw [List.length_drop]; omega)]
          dsimp only
          rw [if_neg (by rw [List.length_drop, List.length_drop]; omega), List.drop_drop,
            List.drop_drop]
        rw [if_pos hfits, hrecord, readFrames_some hframe]
        show (framedFrom blob _).bind _ = _
        rw [ih _ (by omega) _ rfl]
        rfl
      · have hnone : takeFrame (blob.drop pos) = none := by
          unfold takeFrame
          rw [if_neg (by rw [List.length_drop]; omega)]
          exact if_pos (by rw [List.length_drop, List.length_drop]; omega)
        rw [if_neg hfits, readFrames_none hnone]

end FileSessions

section Positions

variable (b : Bytes)

theorem tracks_getRange (n : Nat) : Tracks b (take n) fun pos =>
    (getRange b pos (pos + n)).map fun head => (head, pos + n) := by
  intro pos hpos
  rw [← tracks_take b n pos hpos]
  unfold getRange
  dsimp only
  by_cases hle : pos + n ≤ b.length
  · rw [if_pos hle, if_pos ⟨Nat.le_add_right _ _, hle⟩, Nat.add_sub_cancel_left]
    rfl
  · rw [if_neg hle, if_neg fun h => hle h.2]
    rfl

theorem tracks_u32 : Tracks b u32 (takeU32At b) := by
  have hbind : Tracks b u32 _ := (tracks_getRange b 4).bind (local_take 4) fun head => Tracks.pure b (fromLe head)
  intro pos hpos
  rw [← hbind pos hpos]
  show (getRange b pos (pos + 4)).bind _ = ((getRange b pos (pos + 4)).map _).bind _
  cases getRange b pos (pos + 4) <;> rfl

theorem tracks_u64 : Tracks b u64 (takeU64At b) := by
  have hbind : Tracks b u64 _ := (tracks_getRange b 8).bind (local_take 8) fun head =>
    Tracks.pure b (UInt64.ofNat (fromLe head))
  intro pos hpos
  rw [← hbind pos hpos]
  show (getRange b pos (pos + 8)).bind _ = ((getRange b pos (pos + 8)).map _).bind _
  cases getRange b pos (pos + 8) <;> rfl

theorem tracks_str : Tracks b str (takeStrAt b) := by
  have hbind : Tracks b str _ := (tracks_u32 b).bind local_u32 fun len =>
    (tracks_getRange b len).bind (local_take len) fun head => tracks_given b (decodeUtf8 head)
  intro pos hpos
  rw [← hbind pos hpos]
  show (takeU32At b pos).bind _ = (takeU32At b pos).bind _
  cases takeU32At b pos with
  | none => rfl
  | some p =>
    show (getRange b p.2 (p.2 + p.1)).bind _ = ((getRange b p.2 (p.2 + p.1)).map _).bind _
    cases getRange b p.2 (p.2 + p.1) with
    | none => rfl
    | some head =>
      show (decodeUtf8 head).bind _ = (decodeUtf8 head).map _
      cases decodeUtf8 head <;> rfl

theorem tracks_opt : Tracks b opt (ActiveVisitor.takeOptAt b) := by
  have hbind : Tracks b opt _ := (tracks_item b).bind local_item fun present =>
    (tracks_str b).bind local_str fun s => Tracks.pure b (if present ≠ 0 then some s else none)
  intro pos hpos
  rw [← hbind pos hpos]
  show (b[pos]?).bind _ = ((b[pos]?).map _).bind _
  cases b[pos]? <;> rfl

theorem decodeRecordAt_eq : Redis.decodeRecordAt b = (sessionRecord b).map Prod.fst := by
  have hbind : Tracks b sessionRecord _ := (tracks_str b).bind local_str fun user =>
    (tracks_u64 b).bind local_u64 fun created => (tracks_u64 b).bind local_u64 fun lastSeen =>
      (tracks_str b).bind local_str fun label =>
        Tracks.pure b (SessionRecord.mk user created lastSeen label)
  rw [← hbind.start]
  simp only [Redis.decodeRecordAt, Option.bind_eq_bind, Option.map_bind, Function.comp_def,
    Option.pure_def, Option.map_some]

theorem decodeVisitor_eq : ActiveVisitor.decode b = (visitor b).map Prod.fst := by
  have hbind : Tracks b visitor _ := (tracks_str b).bind local_str fun id =>
    (tracks_item b).bind local_item fun authenticated => (tracks_str b).bind local_str fun ip =>
      (tracks_opt b).bind local_opt fun userAgent => (tracks_str b).bind local_str fun path =>
        (tracks_str b).bind local_str fun method => (tracks_u64 b).bind local_u64 fun lastSeen =>
          Tracks.pure b (ActiveVisitor.mk id (decide (authenticated ≠ 0))
            (if ip = [] then none else IpAddr.parse ip) userAgent path method lastSeen.toNat)
  rw [← hbind.start]
  simp only [ActiveVisitor.decode, Option.bind_eq_bind, Option.map_bind, Option.bind_map,
    Function.comp_def, Option.pure_def, Option.map_some]

end Positions

/-- Records are read back from the snapshot they are packed into exactly if each is shorter than
4 GiB. -/
theorem framed_iff (records : List Bytes) :
    FileSessions.framedFrom (records.flatMap frame) 0 = .ok records ↔
      ∀ record ∈ records, Framable record := by
  rw [FileSessions.framedFrom_eq, List.drop_zero]
  constructor
  · intro heq record hrecord
    apply framable_of_mem_readFrames
    rwa [Except.ok.inj heq]
  · intro hframable
    rw [readFrames_flatMap_frame hframable]

/-- What the encoders write is read back, and no strict prefix of it is; no bytes make a reader leave
its range; and a snapshot gives its records back exactly if each is shorter than 4 GiB. -/
theorem records_round_trip {sid : Text} {r : SessionRecord} {v : ActiveVisitor} (hsid : Short sid)
    (hr : r.Short) (hv : v.Short) (bytes : Bytes) (records : List Bytes) :
    (FileSessions.insertOf (insertRecord sid r) = .ok (some (sid, r)) ∧
      Redis.decodeRecordAt (Redis.encodeRecord r) = some r ∧ ActiveVisitor.decode v.encode = some v) ∧
    (∀ front : Bytes,
      (front <+: insertRecord sid r → front ≠ insertRecord sid r →
        FileSessions.insertOf front = .ok none) ∧
      (front <+: Redis.encodeRecord r → front ≠ Redis.encodeRecord r →
        Redis.decodeRecordAt front = none) ∧
      (front <+: v.encode → front ≠ v.encode → ActiveVisitor.decode front = none)) ∧
    (∃ read framed, FileSessions.insertOf bytes = .ok read ∧
      FileSessions.framedFrom bytes 0 = .ok framed) ∧
    (FileSessions.framedFrom (records.flatMap frame) 0 = .ok records ↔
      ∀ record ∈ records, Framable record) := by
  have hinsert := reads_insert hsid hr
  have hsession := reads_sessionRecord hr
  have hvisitor := reads_visitor hv
  refine ⟨⟨?_, ?_, ?_⟩, fun front => ⟨?_, ?_, ?_⟩, ?_, framed_iff records⟩
  · show FileSessions.decodeInsert (putStr sid ++ Redis.encodeRecord r) = _
    rw [FileSessions.decodeInsert_eq, hinsert.decoded]
  · rw [decodeRecordAt_eq, hsession.decoded]
  · rw [decodeVisitor_eq, hvisitor.decoded]
  · intro hfront hne
    cases front with
    | nil => rfl
    | cons tag payload =>
      have hcons : tag :: payload <+: 1 :: (putStr sid ++ Redis.encodeRecord r) := hfront
      obtain ⟨rfl, hpayload⟩ := List.cons_prefix_cons.mp hcons
      have hne' : payload ≠ putStr sid ++ Redis.encodeRecord r := fun heq =>
        hne (congrArg (List.cons 1) heq)
      show FileSessions.decodeInsert payload = _
      rw [FileSessions.decodeInsert_eq, hinsert.prefix_none local_insert hpayload hne']
      rfl
  · intro hfront hne
    rw [decodeRecordAt_eq, hsession.prefix_none local_sessionRecord hfront hne]
    rfl
  · intro hfront hne
    rw [decodeVisitor_eq, hvisitor.prefix_none local_visitor hfront hne]
    rfl
  · have hread : ∃ read, FileSessions.insertOf bytes = .ok read := by
      unfold FileSessions.insertOf
      split
      next payload => exact ⟨_, FileSessions.decodeInsert_eq payload⟩
      next => exact ⟨none, rfl⟩
    obtain ⟨read, hread⟩ := hread
    exact ⟨read, _, hread, FileSessions.framedFrom_eq bytes 0⟩

def writtenRecord : SessionRecord := ⟨"alice".toList, 1, 2, []⟩

def aliceVisitor : ActiveVisitor :=
  ⟨"alice".toList, true, some (.v4 2130706433#32), none, "/".toList, "GET".toList, 7⟩

theorem records_round_trip_alice :
    FileSessions.insertOf (insertRecord "sid".toList writtenRecord) =
        .ok (some ("sid".toList, writtenRecord)) ∧
      Redis.decodeRecordAt (Redis.encodeRecord writtenRecord) = some writtenRecord ∧
      ActiveVisitor.decode aliceVisitor.encode = some aliceVisitor := by
  have hsid : Short "sid".toList := by decide
  have hr : writtenRecord.Short := ⟨by decide, by decide⟩
  have hv : aliceVisitor.Short := ⟨by decide, (fun _ h => nomatch h), by decide, by decide, by decide⟩
  exact (records_round_trip hsid hr hv [] []).1

/-- Half of 4 GiB of text. -/
def halfText : Text := List.replicate (2 ^ 31) 'a'

theorem length_halfText : (encodeUtf8 halfText).length = 2 ^ 31 := by
  have hall : ∀ n, (encodeUtf8 (List.replicate n 'a')).length = n := by
    intro n
    induction n with
    | zero => rfl
    | succ n ih =>
      rw [List.replicate_succ, encodeUtf8_cons, List.length_append, ih]
      show 1 + n = n + 1
      omega
  exact hall (2 ^ 31)

theorem not_framable {s : Text} (h : (encodeUtf8 s).length = 2 ^ 31) :
    ¬ Framable (insertRecord [] ⟨s, 0, 0, s⟩) := by
  unfold Framable
  rw [length_insertRecord, h]
  omega

/-- A record of 4 GiB, each of its strings shorter, is not read back from a snapshot. -/
theorem not_framed :
    (Short halfText ∧ (SessionRecord.mk halfText 0 0 halfText).Short) ∧
      FileSessions.framedFrom ([insertRecord [] ⟨halfText, 0, 0, halfText⟩].flatMap frame) 0 ≠
        .ok [insertRecord [] ⟨halfText, 0, 0, halfText⟩] := by
  have hshort : Short halfText := by
    unfold Short
    rw [length_halfText]
    decide
  refine ⟨⟨hshort, hshort, hshort⟩, fun heq => ?_⟩
  exact not_framable length_halfText ((framed_iff _).mp heq _ (List.mem_singleton_self _))

end Kernway
