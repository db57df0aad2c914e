import Kernway.RedisCalls
import Kernway.SessionLog

namespace Kernway.Redis

structure RedisSessionStore where
  ttlSecs : UInt64

def indexKey : Text := "kw:sess:index".toList

def sessKey (sid : Text) : Text := "kw:sess:".toList ++ sid

def userKey (user : Text) : Text := "kw:user:".toList ++ user

def encodeRecord (r : SessionRecord) : Bytes :=
  putStr r.user ++ (putU64 r.created ++ (putU64 r.lastSeen ++ putStr r.meta))

def decodeRecord (b : Bytes) : Option SessionRecord := do
  let (user, b) ← takeStr b
  let (created, b) ← takeU64 b
  let (lastSeen, b) ← takeU64 b
  let (label, _) ← takeStr b
  some ⟨user, created, lastSeen, label⟩

theorem sessKey_inj {sid sid' : Text} : sessKey sid = sessKey sid' ↔ sid = sid' := by
  unfold sessKey
  exact List.append_right_inj _

theorem userKey_inj {user user' : Text} : userKey user = userKey user' ↔ user = user' := by
  unfold userKey
  exact List.append_right_inj _

theorem userKey_ne_sessKey (user sid : Text) : userKey user ≠ sessKey sid := by
  have huser : (userKey user)[3]? = some 'u' := rfl
  have hsess : (sessKey sid)[3]? = some 's' := rfl
  intro h
  rw [h, hsess] at huser
  exact absurd (Option.some.inj huser) (by decide)

/-- The session id whose key is the index's. -/
def indexSid : Text := "index".toList

theorem indexKey_eq : indexKey = sessKey indexSid := by decide

theorem userKey_ne_indexKey (user : Text) : userKey user ≠ indexKey := by
  rw [indexKey_eq]
  exact userKey_ne_sessKey user indexSid

theorem sessKey_ne_userKey {x user : Text} : sessKey x ≠ userKey user :=
  (userKey_ne_sessKey user x).symm

theorem sessKey_ne_indexKey {x : Text} (hx : x ≠ indexSid) : sessKey x ≠ indexKey := by
  rw [indexKey_eq]
  exact fun h => hx (sessKey_inj.1 h)

def recordIn : Option Entry → Option SessionRecord
  | some ⟨.string bytes, _⟩ => decodeRecord bytes
  | _ => none

/-- The live session under an id. -/
def Server.record (s : Server) (sid : Text) : Option SessionRecord :=
  recordIn (s.entry (sessKey sid))

section Record

variable {s s' : Server}

theorem Server.Left.record {key : Text} {entry : Option Entry} (h : s.Left key entry s') (sid : Text) :
    s'.record sid = if sessKey sid = key then recordIn entry else s.record sid := by
  unfold Server.record
  rw [h.2]
  split <;> rfl

theorem Server.Left.record_same {key : Text} (h : s.Left key (s.entry key) s') (sid : Text) :
    s'.record sid = s.record sid := congrArg recordIn (h.entry_same _)

theorem decode_of_get {sid : Text} {o : Option Bytes}
    (h : (s.entry (sessKey sid)).map Entry.stored = o.map Stored.string) :
    o.bind decodeRecord = s.record sid := by
  unfold Server.record
  cases he : s.entry (sessKey sid) with
  | none =>
    rw [he] at h
    cases o with
    | none => rfl
    | some bytes => simp at h
  | some e =>
    obtain ⟨stored, expires⟩ := e
    rw [he] at h
    cases o with
    | none => simp at h
    | some bytes =>
      cases Option.some.inj h
      rfl

end Record

theorem length_sessKey (sid : Text) :
    (encodeUtf8 (sessKey sid)).length = 8 + (encodeUtf8 sid).length := by
  have hstart : (encodeUtf8 "kw:sess:".toList).length = 8 := rfl
  unfold sessKey
  rw [encodeUtf8_append, List.length_append, hstart]

theorem length_userKey (user : Text) :
    (encodeUtf8 (userKey user)).length = 8 + (encodeUtf8 user).length := by
  have hstart : (encodeUtf8 "kw:user:".toList).length = 8 := rfl
  unfold userKey
  rw [encodeUtf8_append, List.length_append, hstart]

theorem length_indexKey : (encodeUtf8 indexKey).length ≤ maxBulk := by decide

theorem length_encodeRecord (r : SessionRecord) :
    (encodeRecord r).length = 24 + (encodeUtf8 r.user).length + (encodeUtf8 r.meta).length := by
  simp only [encodeRecord, List.length_append, length_putStr, length_putU64]
  omega

/-- The name of a user whose record the server takes is short enough for a key. -/
theorem length_userKey_le {r : SessionRecord} (h : (encodeRecord r).length ≤ maxBulk) :
    (encodeUtf8 (userKey r.user)).length ≤ maxBulk := by
  rw [length_encodeRecord] at h
  rw [length_userKey]
  omega

/-- A value that the server takes is short enough for its lengths to be read back. -/
theorem decodeRecord_encodeRecord {r : SessionRecord} (h : (encodeRecord r).length ≤ maxBulk) :
    decodeRecord (encodeRecord r) = some r := by
  rw [length_encodeRecord] at h
  have hmax : maxBulk < 2 ^ 32 := by decide
  have hlabel : takeStr (putStr r.meta) = some (r.meta, []) := by
    simpa using takeStr_putStr (s := r.meta) (by omega) []
  simp only [encodeRecord, decodeRecord, Option.bind_eq_bind,
    takeStr_putStr (s := r.user) (by omega), takeU64_putU64, hlabel, Option.bind_some]

namespace RedisSessionStore

open Connection

def insert (store : RedisSessionStore) (sid : Text) (record : SessionRecord) : Call PUnit := do
  setEx (sessKey sid) (encodeRecord record) store.ttlSecs
  sadd (userKey record.user) sid
  expire (userKey record.user) store.ttlSecs
  sadd indexKey sid

def get (sid : Text) : Call (Option SessionRecord) := do
  let bytes ← Connection.get (sessKey sid)
  return bytes.bind decodeRecord

def touch (store : RedisSessionStore) (sid : Text) (time : UInt64) : Call PUnit := do
  match (← Connection.get (sessKey sid)).bind decodeRecord with
  | some record =>
    setEx (sessKey sid) (encodeRecord { record with lastSeen := time }) store.ttlSecs
  | none => return ⟨⟩

def remove (sid : Text) : Call PUnit := do
  let user := ((← Connection.get (sessKey sid)).bind decodeRecord).map SessionRecord.user
  let _ ← del (sessKey sid)
  match user with
  | some user => srem (userKey user) sid
  | none => pure ⟨⟩
  srem indexKey sid

/-- What `touch` does with the record it has read. -/
def touchRead (store : RedisSessionStore) (sid : Text) (time : UInt64) :
    Option SessionRecord → Call PUnit
  | some record => setEx (sessKey sid) (encodeRecord { record with lastSeen := time }) store.ttlSecs
  | none => pure ⟨⟩

/-- What `remove` does once the session is deleted. -/
def removeRead (sid : Text) : Option Text → Call PUnit
  | some user => do
    let _ ← srem (userKey user) sid
    srem indexKey sid
  | none => srem indexKey sid

def removeUser (user : Text) : Call PUnit := do
  (← smembers (userKey user)).forM fun sid => do
    let _ ← del (sessKey sid)
    srem indexKey sid
  let _ ← del (userKey user)

def len : Call Nat := do
  let n ← scard indexKey
  return (max n 0).toNatClampNeg

theorem toNatClampNeg_max {k : Nat} (h : k < 2 ^ 63) :
    (max (Int64.ofNat k) 0).toNatClampNeg = k := by
  have hk : (Int64.ofNat k).toInt = k := Int64.toInt_ofNat_of_lt h
  have h0 : (0 : Int64) ≤ Int64.ofNat k := by
    rw [Int64.le_iff_toInt_le, hk]
    simp
  have hmax : max (Int64.ofNat k) 0 = Int64.ofNat k := by
    show (if Int64.ofNat k ≤ 0 then 0 else Int64.ofNat k) = _
    split
    next hle => exact (Int64.le_antisymm hle h0).symm
    next => rfl
  rw [hmax, Int64.toNatClampNeg, hk]
  simp

/-- A write of the store. -/
def write (store : RedisSessionStore) : SessionOp → Call PUnit
  | .insert sid record => store.insert sid record
  | .touch sid time => store.touch sid time
  | .remove sid => remove sid
  | .removeUser user => removeUser user

end RedisSessionStore

end Kernway.Redis
