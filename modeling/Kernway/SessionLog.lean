import Kernway.LengthPrefix
import Kernway.Persist
import Kernway.Session

namespace Kernway

def putStr (s : Text) : Bytes := toLe 4 (encodeUtf8 s).length ++ encodeUtf8 s

def putU64 (n : UInt64) : Bytes := toLe 8 n.toNat

def insertRecord (sid : Text) (r : SessionRecord) : Bytes :=
  1 :: (putStr sid ++ (putStr r.user ++ (putU64 r.created ++ (putU64 r.lastSeen ++ putStr r.meta))))

def recordOf : SessionOp → Bytes
  | .insert sid record => insertRecord sid record
  | .touch sid time => 2 :: (putStr sid ++ putU64 time)
  | .remove sid => 3 :: putStr sid
  | .removeUser user => 4 :: putStr user

def takeU32 (b : Bytes) : Option (Nat × Bytes) :=
  if b.length < 4 then none else some (fromLe (b.take 4), b.drop 4)

def takeU64 (b : Bytes) : Option (UInt64 × Bytes) :=
  if b.length < 8 then none else some (UInt64.ofNat (fromLe (b.take 8)), b.drop 8)

def takeStr (b : Bytes) : Option (Text × Bytes) := do
  let (len, b) ← takeU32 b
  if b.length < len then none
  else
    let s ← decodeUtf8 (b.take len)
    some (s, b.drop len)

def decodeInsert (b : Bytes) : Option (Text × SessionRecord) := do
  let (sid, b) ← takeStr b
  let (user, b) ← takeStr b
  let (created, b) ← takeU64 b
  let (lastSeen, b) ← takeU64 b
  let (label, _) ← takeStr b
  some (sid, ⟨user, created, lastSeen, label⟩)

/-- The write that `apply` makes of a logged record, if any. -/
def decodeRecord : Bytes → Option SessionOp
  | [] => none
  | tag :: payload =>
    if tag = 1 then do
      let (sid, record) ← decodeInsert payload
      some (.insert sid record)
    else if tag = 2 then do
      let (sid, payload) ← takeStr payload
      let (time, _) ← takeU64 payload
      some (.touch sid time)
    else if tag = 3 then do
      let (sid, _) ← takeStr payload
      some (.remove sid)
    else if tag = 4 then do
      let (user, _) ← takeStr payload
      some (.removeUser user)
    else none

/-- `apply`: a record that does not decode is skipped. -/
def applyRecord (inner : MemorySessionStore) (record : Bytes) : MemorySessionStore :=
  match decodeRecord record with
  | some op => op.apply inner
  | none => inner

/-- `framed`: the records packed into a snapshot. -/
def framed (blob : Bytes) : List Bytes := readFrames blob

def replay (loaded : Loaded) : MemorySessionStore :=
  loaded.records.foldl applyRecord <| match loaded.snapshot with
    | some snapshot => (framed snapshot).foldl applyRecord ∅
    | none => ∅

/-- `snapshot_bytes`, from the registry's entries in the order it lists them. -/
def snapshotBytes (entries : List (Σ _ : Text, SessionRecord)) : Bytes :=
  entries.flatMap fun e => frame (insertRecord e.1 e.2)

section Strings

theorem takeU32_toLe {n : Nat} (h : n < 2 ^ 32) (b : Bytes) :
    takeU32 (toLe 4 n ++ b) = some (n, b) := by
  have htake : (toLe 4 n ++ b).take 4 = toLe 4 n := by simp
  have hdrop : (toLe 4 n ++ b).drop 4 = b := by simp
  rw [takeU32, if_neg (by simp), htake, hdrop, fromLe_toLe h]

theorem takeU64_putU64 (n : UInt64) (b : Bytes) : takeU64 (putU64 n ++ b) = some (n, b) := by
  have htake : (toLe 8 n.toNat ++ b).take 8 = toLe 8 n.toNat := by simp
  have hdrop : (toLe 8 n.toNat ++ b).drop 8 = b := by simp
  rw [takeU64, putU64, if_neg (by simp), htake, hdrop, fromLe_toLe n.toNat_lt]
  simp

theorem takeStr_putStr {s : Text} (h : (encodeUtf8 s).length < 2 ^ 32) (b : Bytes) :
    takeStr (putStr s ++ b) = some (s, b) := by
  simp only [takeStr, putStr, List.append_assoc, takeU32_toLe h, Option.bind_eq_bind,
    Option.bind_some]
  rw [if_neg (by simp)]
  simp

theorem takeStr_eq_some {b rest : Bytes} {s : Text} (h : takeStr b = some (s, rest)) :
    b = putStr s ++ rest := by
  obtain ⟨⟨len, b'⟩, hlen, h⟩ := Option.bind_eq_some_iff.mp h
  unfold takeU32 at hlen
  split at hlen
  next => simp at hlen
  next h4 =>
    obtain ⟨rfl, rfl⟩ := Prod.mk.inj (Option.some.inj hlen)
    dsimp only at h
    split at h
    next => simp at h
    next hbody =>
      obtain ⟨s', hs, h⟩ := Option.bind_eq_some_iff.mp h
      obtain ⟨rfl, rfl⟩ := Prod.mk.inj (Option.some.inj h)
      have hbytes := encodeUtf8_of_decodeUtf8 hs
      have hhead : (b.take 4).length = 4 := by rw [List.length_take]; omega
      have hprefix : toLe 4 (fromLe (b.take 4)) = b.take 4 := by
        have hle := toLe_fromLe (b.take 4)
        rwa [hhead] at hle
      rw [putStr, hbytes, List.length_take, Nat.min_eq_left (by omega), hprefix, List.append_assoc,
        List.take_append_drop, List.take_append_drop]

theorem takeU64_eq_some {b rest : Bytes} {n : UInt64} (h : takeU64 b = some (n, rest)) :
    b.length = 8 + rest.length := by
  unfold takeU64 at h
  split at h
  next => simp at h
  next h8 =>
    obtain ⟨-, rfl⟩ := Prod.mk.inj (Option.some.inj h)
    rw [List.length_drop]
    omega

end Strings

@[simp] theorem length_putStr (s : Text) : (putStr s).length = 4 + (encodeUtf8 s).length := by
  simp [putStr]

@[simp] theorem length_putU64 (n : UInt64) : (putU64 n).length = 8 := length_toLe 8 _

theorem length_insertRecord (sid : Text) (r : SessionRecord) :
    (insertRecord sid r).length = 29 + (encodeUtf8 sid).length + (encodeUtf8 r.user).length +
      (encodeUtf8 r.meta).length := by
  simp only [insertRecord, List.length_cons, List.length_append, length_putStr, length_putU64]
  omega

theorem decodeInsert_insertRecord {sid : Text} {r : SessionRecord}
    (h : Framable (insertRecord sid r)) :
    decodeRecord (insertRecord sid r) = some (.insert sid r) := by
  have hlen : (insertRecord sid r).length < 2 ^ 32 := h
  rw [length_insertRecord] at hlen
  have hlabel : takeStr (putStr r.meta) = some (r.meta, []) := by
    simpa using takeStr_putStr (s := r.meta) (by omega) []
  simp only [insertRecord, decodeRecord, if_true, decodeInsert, Option.bind_eq_bind,
    takeStr_putStr (s := sid) (by omega), takeStr_putStr (s := r.user) (by omega), takeU64_putU64,
    hlabel, Option.bind_some]

theorem decodeRecord_recordOf {op : SessionOp} (h : Framable (recordOf op)) :
    decodeRecord (recordOf op) = some op := by
  have hlast {s : Text} (hs : (encodeUtf8 s).length < 2 ^ 32) :
      takeStr (putStr s) = some (s, []) := by
    simpa using takeStr_putStr hs []
  have hlen : (recordOf op).length < 2 ^ 32 := h
  cases op with
  | insert sid record => exact decodeInsert_insertRecord h
  | touch sid time =>
    simp only [recordOf, List.length_cons, List.length_append, length_putStr, length_putU64] at hlen
    have htime : takeU64 (putU64 time) = some (time, []) := by
      simpa using takeU64_putU64 time []
    simp [recordOf, decodeRecord, takeStr_putStr (s := sid) (by omega), htime]
  | remove sid =>
    simp only [recordOf, List.length_cons, length_putStr] at hlen
    simp [recordOf, decodeRecord, hlast (s := sid) (by omega)]
  | removeUser user =>
    simp only [recordOf, List.length_cons, length_putStr] at hlen
    simp [recordOf, decodeRecord, hlast (s := user) (by omega)]

theorem length_of_decodeInsert {b : Bytes} {sid : Text} {r : SessionRecord}
    (h : decodeInsert b = some (sid, r)) : (insertRecord sid r).length ≤ b.length + 1 := by
  obtain ⟨⟨sid', b₁⟩, h₁, h⟩ := Option.bind_eq_some_iff.mp h
  obtain ⟨⟨user, b₂⟩, h₂, h⟩ := Option.bind_eq_some_iff.mp h
  obtain ⟨⟨created, b₃⟩, h₃, h⟩ := Option.bind_eq_some_iff.mp h
  obtain ⟨⟨lastSeen, b₄⟩, h₄, h⟩ := Option.bind_eq_some_iff.mp h
  obtain ⟨⟨label, b₅⟩, h₅, h⟩ := Option.bind_eq_some_iff.mp h
  obtain ⟨rfl, rfl⟩ := Prod.mk.inj (Option.some.inj h)
  have hsid := congrArg List.length (takeStr_eq_some h₁)
  have huser := congrArg List.length (takeStr_eq_some h₂)
  have hcreated := takeU64_eq_some h₃
  have hlast := takeU64_eq_some h₄
  have hlabel := congrArg List.length (takeStr_eq_some h₅)
  simp only [List.length_append, length_putStr] at hsid huser hlabel
  rw [length_insertRecord]
  dsimp only at hcreated hlast ⊢
  omega

/-- An insert that is read takes no more bytes to write again. -/
theorem length_insertRecord_le {record : Bytes} {sid : Text} {r : SessionRecord}
    (h : decodeRecord record = some (.insert sid r)) :
    (insertRecord sid r).length ≤ record.length := by
  cases record with
  | nil => simp [decodeRecord] at h
  | cons tag payload =>
    simp only [decodeRecord] at h
    split at h
    next =>
      obtain ⟨⟨sid', r'⟩, hd, h⟩ := Option.bind_eq_some_iff.mp h
      cases Option.some.inj h
      exact length_of_decodeInsert hd
    next =>
      -- the other tags decode to other writes
      split at h
      next => simp [Option.bind_eq_some_iff] at h
      next =>
        split at h
        next => simp [Option.bind_eq_some_iff] at h
        next => split at h <;> simp [Option.bind_eq_some_iff] at h

end Kernway
