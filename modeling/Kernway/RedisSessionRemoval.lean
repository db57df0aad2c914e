import Kernway.RedisSessions
import Kernway.Runs
import Mathlib.Data.Set.Insert

namespace Kernway.Redis

/-- A write of the store that is under way: what is left of its commands, and the sessions that it
is to have ended when it returns. -/
structure Client where
  op : SessionOp
  rest : Call PUnit
  owed : Set Text := ∅

/-- What a write that returns has ended: nothing where it fails. -/
def Client.returned (c : Client) : Except StoreError PUnit → Set Text
  | .ok _ => c.owed
  | .error _ => ∅

/-- The server with its clients, and the sessions that a removal has ended and no insert has written
since. -/
structure Clients where
  server : Server
  client : Nat → Option Client := fun _ => none
  ended : Set Text := ∅

def Clients.put (s : Clients) (i : Nat) (c : Option Client) : Clients :=
  { s with client := fun j => if j = i then c else s.client j }

/-- Sessions written again, that no removal has ended then. -/
def Clients.revive (s : Clients) (sids : Set Text) : Clients :=
  { s with
    client := fun j => (s.client j).map fun c => { c with owed := c.owed \ sids }
    ended := s.ended \ sids }

/-- The session that a removal is to end from its start. -/
def owedAtStart : SessionOp → Set Text
  | .remove sid => {sid}
  | _ => ∅

/-- The sessions that a removal is to end from one of its commands on: those its user has as it
reads their index, and those whose keys it deletes. -/
def owedBy (s : Server) (cmd : Command) (reply : Except RedisError Value) :
    SessionOp → Set Text
  | .removeUser user => {sid | (cmd = .smembers (userKey user) ∧
      ∃ r, s.record sid = some r ∧ r.user = user) ∨ cmd = .del (sessKey sid) ∧ ∃ v, reply = .ok v}
  | .remove _ => {sid | cmd = .del (sessKey sid) ∧ ∃ v, reply = .ok v}
  | _ => ∅

/-- The session that an insert's command has written. -/
def writtenBy (cmd : Command) (reply : Except RedisError Value) : SessionOp → Set Text
  | .insert sid _ => {x | x = sid ∧ (∃ value ttlSecs, cmd = .setEx (sessKey sid) value ttlSecs) ∧
      ∃ v, reply = .ok v}
  | _ => ∅

/-- What a command leaves of the clients when one of them has sent it. -/
def Clients.sent (s : Clients) (i : Nat) (c : Client) (cmd : Command)
    (reply : Except RedisError Value) (rest : Call PUnit) (server : Server) : Clients :=
  (({ s with server }).put i (some { c with
    rest, owed := c.owed ∪ owedBy s.server cmd reply c.op })).revive (writtenBy cmd reply c.op)

inductive ClientEvent
  | start (i : Nat) (op : SessionOp)
  | send (i : Nat)
  | finish (i : Nat)
  | pass (millis : Nat)

/-- Clients start writes, send one command after the other in any order among them, and return. -/
inductive Clients.Step (store : RedisSessionStore) : Clients → ClientEvent → Clients → Prop
  | start {s : Clients} {i : Nat} {op : SessionOp} : s.client i = none →
      Step store s (.start i op) (s.put i (some ⟨op, store.write op, owedAtStart op⟩))
  | send {s : Clients} {i : Nat} {c : Client} {cmd : Command}
      {next : Except RedisError Value → Call PUnit} {reply : Except RedisError Value}
      {server : Server} : s.client i = some c → c.rest = .send cmd next →
      s.server.Answers cmd reply server →
      Step store s (.send i) (s.sent i c cmd reply (next reply) server)
  | finish {s : Clients} {i : Nat} {c : Client} {result : Except StoreError PUnit} :
      s.client i = some c → c.rest = .done result →
      Step store s (.finish i) (({ s with ended := s.ended ∪ c.returned result }).put i none)
  | pass {s : Clients} {millis : Nat} :
      Step store s (.pass millis) { s with server := s.server.pass millis }

/-- Clients of a server that holds anything. -/
def RedisSessionStore.clients (store : RedisSessionStore) : System Clients ClientEvent where
  start s := (∀ i, s.client i = none) ∧ s.ended = ∅
  step := Clients.Step store

/-- The store has no session under the id: reading it returns none, or, under the id whose key is
the index's, that the key holds no session. -/
def Server.Absent (s : Server) (sid : Text) : Prop :=
  ∀ result s', (RedisSessionStore.get sid).Runs Server.Answers s result s' →
    result = .ok none ∨ sid = indexSid ∧ ∃ e, result = .error e

/-- A touch that has read the session it is about to write. -/
def Client.Holds (c : Client) (sid : Text) : Prop :=
  (∃ time, c.op = .touch sid time) ∧
    ∃ key value ttlSecs next, c.rest = .send (.setEx key value ttlSecs) next

/-- No session is deleted while a touch of it is between its two commands, and the index of a user
whose sessions are removed lists them as it is read. -/
def RemovalKept (s : Clients) : ClientEvent → Prop
  | .send i => ∀ c cmd next, s.client i = some c → c.rest = .send cmd next →
    (∀ sid, cmd = .del (sessKey sid) → ∀ j c', s.client j = some c' → ¬c'.Holds sid) ∧
    ∀ user, cmd = .smembers (userKey user) → ∀ sid r, s.server.record sid = some r →
      r.user = user → sid ∈ s.server.lists (userKey user)
  | _ => True

/-- The command neither stores a session under the id nor, but for the index, makes a set of its
key. -/
def Command.Spares (sid : Text) (cmd : Command) : Prop :=
  (∀ value ttlSecs, cmd ≠ .setEx (sessKey sid) value ttlSecs) ∧
    ∀ member, cmd = .sadd (sessKey sid) member → sid = indexSid

/-- The script never stores a session under the id while its key holds none. -/
def Harmless (sid : Text) : Call PUnit → Prop
  | .done _ => True
  | .send cmd next => cmd.Spares sid ∧ ∀ reply,
    (cmd = .get (sessKey sid) → ∀ bytes, reply ≠ .ok (.bulk bytes)) → Harmless sid (next reply)

/-- The script stores a session under the id with its next command, and with none after it. -/
def Poised (sid : Text) (x : Call PUnit) : Prop :=
  ∃ value ttlSecs next, x = .send (.setEx (sessKey sid) value ttlSecs) next ∧
    ∀ reply, Harmless sid (next reply)

/-- The script does not return without an error before it has deleted the session. -/
def Clears (sid : Text) : Call PUnit → Prop
  | .done result => ∃ e, result = .error e
  | .send cmd next => ∀ reply, (cmd = .del (sessKey sid) ∧ ∃ v, reply = .ok v) ∨
    Clears sid (next reply)

/-- The key of a session that holds none. -/
def Server.Vacant (s : Server) (sid : Text) : Prop :=
  (encodeUtf8 (sessKey sid)).length ≤ maxBulk ∧ ∀ e, s.entry (sessKey sid) = some e →
    sid = indexSid ∧ ∃ ms, e.stored = .set ms

section Commands

variable {s s' : Server} {sid : Text}

theorem Server.Vacant.absent (h : s.Vacant sid) : s.Absent sid := by
  obtain ⟨hlen, hentry⟩ := h
  refine Script.wp_iff.mp (Script.wp_bind (Connection.wp_get (fun o s₁ _ _ hget => ?_) ?_))
  · -- what is read is no session
    refine .inl (congrArg Except.ok ?_)
    cases o with
    | none => rfl
    | some bytes =>
      obtain ⟨e, he, hstored⟩ := Option.map_eq_some_iff.mp hget
      obtain ⟨-, ms, hms⟩ := hentry e he
      rw [hstored] at hms
      simp at hms
  · intro e s₁ hne _
    obtain ⟨e', he⟩ := Option.ne_none_iff_exists'.mp (hne (Command.short_get hlen))
    exact .inr ⟨(hentry e' he).1, e, rfl⟩

theorem vacant_answers {cmd : Command} {reply : Except RedisError Value} (h : s.Vacant sid)
    (hspares : cmd.Spares sid) (ha : s.Answers cmd reply s') :
    s'.Vacant sid ∧ (cmd = .get (sessKey sid) → ∀ bytes, reply ≠ .ok (.bulk bytes)) := by
  obtain ⟨hlen, hentry⟩ := h
  by_cases hshort : cmd.Short
  · obtain ⟨hreply, hleft⟩ := ha.left hshort
    refine ⟨⟨hlen, fun e he => ?_⟩, ?_⟩
    · rw [hleft.2] at he
      split at he
      next hkey =>
        have hset : ∀ e, s.entry cmd.key = some e → ∃ ms, e.stored = .set ms := by
          intro e he
          rw [← hkey] at he
          exact (hentry e he).2
        have hcmd : ∀ key value ttlSecs, cmd ≠ .setEx key value ttlSecs := by
          rintro key value ttlSecs rfl
          exact hspares.1 value ttlSecs (congrArg (Command.setEx · value ttlSecs) hkey.symm)
        obtain ⟨hstored, hne | ⟨key, member, rfl⟩⟩ := Command.act_set hset hcmd he
        · rw [← hkey] at hne
          obtain ⟨e₀, he₀⟩ := Option.ne_none_iff_exists'.mp hne
          exact ⟨(hentry e₀ he₀).1, hstored⟩
        · have hsadd : key = sessKey sid := hkey.symm
          exact ⟨hspares.2 member (by rw [hsadd]), hstored⟩
      next => exact hentry e he
    · rintro rfl bytes rfl
      simp only [Command.act, Command.key] at hreply
      cases he : s.entry (sessKey sid) with
      | none =>
        rw [he] at hreply
        cases hreply
      | some e =>
        obtain ⟨stored, expires⟩ := e
        obtain ⟨-, ms, hms⟩ := hentry _ he
        cases hms
        rw [he] at hreply
        cases hreply
  · obtain ⟨⟨e, rfl⟩, rfl⟩ := ha.refused hshort
    refine ⟨⟨hlen, hentry⟩, fun _ bytes => ?_⟩
    simp

theorem vacant_refused {value : Bytes} {ttlSecs : UInt64} {e : RedisError} (h : s.Vacant sid)
    (ha : s.Answers (.setEx (sessKey sid) value ttlSecs) (.error e) s') : s'.Vacant sid := by
  by_cases hshort : (Command.setEx (sessKey sid) value ttlSecs).Short
  · obtain ⟨hreply, hleft⟩ := ha.left hshort
    have hsame : (Command.act s.now (s.entry (sessKey sid))
        (.setEx (sessKey sid) value ttlSecs)).2 = s.entry (sessKey sid) := by
      simp only [Command.act, Command.key] at hreply ⊢
      split at hreply
      next =>
        split at hreply
        next hzero => rw [if_pos hzero]
        next => cases hreply
      next => rfl
    have hentry : s'.entry (sessKey sid) = s.entry (sessKey sid) := hleft.entry_self.trans hsame
    exact ⟨h.1, fun e he => h.2 e (by rwa [← hentry])⟩
  · obtain ⟨-, rfl⟩ := ha.refused hshort
    exact h

theorem vacant_del {v : Value} (ha : s.Answers (.del (sessKey sid)) (.ok v) s') :
    s'.Vacant sid := by
  by_cases hshort : (Command.del (sessKey sid)).Short
  · have hentry : s'.entry (sessKey sid) = none := (ha.left hshort).2.entry_self
    refine ⟨hshort _ (by simp [Command.args]), fun e he => ?_⟩
    rw [hentry] at he
    simp at he
  · obtain ⟨⟨e, he⟩, -⟩ := ha.refused hshort
    simp at he

theorem Server.Vacant.pass {millis : Nat} (h : s.Vacant sid) : (s.pass millis).Vacant sid :=
  ⟨h.1, fun e he => h.2 e (entry_pass he)⟩

end Commands

section Scripts

open RedisSessionStore

variable {sid : Text}

theorem spares_sessKey {sid' : Text} (h : sid ≠ sid') (value : Bytes) (ttlSecs : UInt64) :
    (Command.setEx (sessKey sid') value ttlSecs).Spares sid := by
  refine ⟨fun v t heq => ?_, fun member heq => by simp at heq⟩
  obtain ⟨hkey, -⟩ := Command.setEx.inj heq
  exact h (sessKey_inj.mp hkey).symm

theorem spares_userKey (user member : Text) : (Command.sadd (userKey user) member).Spares sid := by
  refine ⟨fun v t heq => by simp at heq, fun m heq => ?_⟩
  exact absurd (Command.sadd.inj heq).1 (userKey_ne_sessKey user sid)

theorem spares_indexKey (member : Text) : (Command.sadd indexKey member).Spares sid := by
  refine ⟨fun v t heq => by simp at heq, fun m heq => ?_⟩
  rw [indexKey_eq] at heq
  exact (sessKey_inj.mp (Command.sadd.inj heq).1).symm

/-- A command that is neither `SET` nor `SADD`. -/
def Plain : Command → Prop
  | .setEx .. | .sadd .. => False
  | _ => True

theorem Plain.spares {cmd : Command} (h : Plain cmd) : cmd.Spares sid := by
  constructor
  · rintro value ttlSecs rfl
    exact h
  · rintro member rfl
    exact h.elim

variable {p : Command → Prop}

theorem sends_call {c : Command} (h : p c) : (Connection.call c).Sends p := ⟨h, fun _ => trivial⟩

theorem sends_get {key : Text} (h : p (.get key)) : (Connection.get key).Sends p := by
  refine Script.sends_bind (sends_call h) fun v => ?_
  cases v <;> trivial

theorem sends_del {key : Text} (h : p (.del key)) : (Connection.del key).Sends p := by
  refine Script.sends_bind (sends_call h) fun v => ?_
  cases v <;> trivial

theorem sends_smembers {key : Text} (h : p (.smembers key)) : (Connection.smembers key).Sends p := by
  refine Script.sends_bind (sends_call h) fun v => ?_
  cases v <;> trivial

theorem sends_sadd {key member : Text} (h : p (.sadd key member)) :
    (Connection.sadd key member).Sends p := Script.sends_bind (sends_call h) fun _ => trivial

theorem sends_srem {key member : Text} (h : p (.srem key member)) :
    (Connection.srem key member).Sends p := Script.sends_bind (sends_call h) fun _ => trivial

theorem sends_expire {key : Text} {ttlSecs : UInt64} (h : p (.expire key ttlSecs)) :
    (Connection.expire key ttlSecs).Sends p := Script.sends_bind (sends_call h) fun _ => trivial

theorem sends_remove (sid' : Text) : (remove sid').Sends (Command.Spares sid) := by
  refine Script.sends_bind (sends_get (Plain.spares trivial)) fun bytes => ?_
  refine Script.sends_bind (sends_del (Plain.spares trivial)) fun _ => ?_
  have hsrem {key member : Text} : (Connection.srem key member).Sends (Command.Spares sid) :=
    sends_srem (Plain.spares trivial)
  cases (bytes.bind decodeRecord).map SessionRecord.user with
  | none => exact hsrem
  | some user => exact Script.sends_bind hsrem fun _ => hsrem

/-- What a user's removal does with the listing of their index. -/
theorem sends_removeListed (hdel : ∀ key, p (.del key)) (hsrem : ∀ key member, p (.srem key member))
    (user : Text) (sids : List Text) :
    ((sids.forM fun sid => do
        let _ ← Connection.del (sessKey sid)
        Connection.srem indexKey sid) >>= fun _ => do
      let _ ← Connection.del (userKey user)).Sends p := by
  refine Script.sends_bind (Script.sends_forM (fun sid => ?_) sids) fun _ => ?_
  · exact Script.sends_bind (sends_del (hdel _)) fun _ => sends_srem (hsrem _ _)
  · exact Script.sends_bind (sends_del (hdel _)) fun _ => trivial

theorem sends_removeUser (user : Text) : (removeUser user).Sends (Command.Spares sid) :=
  Script.sends_bind (sends_smembers (Plain.spares trivial)) fun sids =>
    sends_removeListed (fun _ => Plain.spares trivial) (fun _ _ => Plain.spares trivial) user sids

theorem harmless_of_sends {x : Call PUnit} (h : x.Sends (Command.Spares sid)) :
    Harmless sid x := by
  induction x with
  | done result => trivial
  | send c next ih => exact ⟨h.1, fun reply _ => ih reply (h.2 reply)⟩

/-- An insert stores its session with its first command. -/
theorem insert_eq (store : RedisSessionStore) (sid' : Text) (record : SessionRecord) :
    ∃ value ttlSecs next, store.insert sid' record = .send (.setEx (sessKey sid') value ttlSecs) next ∧
      ∀ reply, (next reply).Sends (Command.Spares sid) := by
  refine ⟨_, _, _, rfl, fun reply => ?_⟩
  cases reply with
  | error e => trivial
  | ok v =>
    show (Connection.sadd (userKey record.user) sid' >>= _).Sends _
    refine Script.sends_bind (sends_sadd (spares_userKey _ _)) fun _ => ?_
    refine Script.sends_bind (sends_expire (Plain.spares trivial)) fun _ => ?_
    exact sends_sadd (spares_indexKey _)

/-- A touch stores its session with its second command, where the first has read one. -/
theorem touch_eq (store : RedisSessionStore) (sid' : Text) (time : UInt64) :
    ∃ next, store.touch sid' time = .send (.get (sessKey sid')) next ∧ ∀ reply,
      (∃ result, next reply = .done result) ∨ (∃ bytes, reply = .ok (.bulk bytes)) ∧
        ∃ value ttlSecs next', next reply = .send (.setEx (sessKey sid') value ttlSecs) next' ∧
          ∀ reply, ∃ result, next' reply = .done result := by
  refine ⟨_, rfl, fun reply => ?_⟩
  cases reply with
  | error e => exact .inl ⟨_, rfl⟩
  | ok v =>
    cases v with
    | bulk bytes =>
      cases hr : decodeRecord bytes with
      | none => exact .inl ⟨_, congrArg (touchRead store sid' time) hr⟩
      | some record =>
        refine .inr ⟨⟨bytes, rfl⟩, _, _, _, congrArg (touchRead store sid' time) hr, fun reply => ?_⟩
        cases reply with
        | error e => exact ⟨_, rfl⟩
        | ok v => exact ⟨_, rfl⟩
    | _ => exact .inl ⟨_, rfl⟩

def Writes : SessionOp → Text → Prop
  | .insert sid _, x => x = sid
  | .touch sid _, x => x = sid
  | _, _ => False

/-- What is left of a write: it does no harm to the session's absence, or stores that session next,
as an insert or a touch of it. -/
def Tame (op : SessionOp) (sid : Text) (x : Call PUnit) : Prop :=
  Harmless sid x ∨ Writes op sid ∧ Poised sid x

theorem tame_of_sends {op : SessionOp} {x : Call PUnit} (h : x.Sends (Command.Spares sid)) :
    x.Throughout (Tame op sid) :=
  h.throughout.mono fun _ hy => .inl (harmless_of_sends hy)

theorem tame_write (store : RedisSessionStore) (op : SessionOp) :
    (store.write op).Throughout (Tame op sid) := by
  cases op with
  | insert sid' record =>
    obtain ⟨value, ttlSecs, next, heq, hnext⟩ := @insert_eq sid store sid' record
    show (store.insert sid' record).Throughout _
    rw [heq]
    refine ⟨?_, fun reply => tame_of_sends (hnext reply)⟩
    by_cases hsid : sid = sid'
    · subst hsid
      exact .inr ⟨rfl, value, ttlSecs, next, rfl, fun reply => harmless_of_sends (hnext reply)⟩
    · exact .inl ⟨spares_sessKey hsid _ _, fun reply _ => harmless_of_sends (hnext reply)⟩
  | touch sid' time =>
    obtain ⟨next, heq, hnext⟩ := touch_eq store sid' time
    show (store.touch sid' time).Throughout _
    rw [heq]
    have hdone {next' : Except RedisError Value → Call PUnit}
        (h : ∀ reply, ∃ result, next' reply = .done result) (reply : Except RedisError Value) :
        (next' reply).Sends (Command.Spares sid) := by
      obtain ⟨result, hr⟩ := h reply
      rw [hr]
      trivial
    refine ⟨.inl ⟨Plain.spares trivial, fun reply hreply => ?_⟩, fun reply => ?_⟩
    · obtain ⟨result, hr⟩ | ⟨⟨bytes, rfl⟩, value, ttlSecs, next', hr, hnext'⟩ := hnext reply
      · rw [hr]
        trivial
      · have hsid : sid ≠ sid' := by
          rintro rfl
          exact hreply rfl bytes rfl
        rw [hr]
        exact ⟨spares_sessKey hsid _ _, fun reply _ => harmless_of_sends (hdone hnext' reply)⟩
    · obtain ⟨result, hr⟩ | ⟨-, value, ttlSecs, next', hr, hnext'⟩ := hnext reply
      · rw [hr]
        exact .inl trivial
      · rw [hr]
        refine ⟨?_, fun reply => tame_of_sends (hdone hnext' reply)⟩
        by_cases hsid : sid = sid'
        · subst hsid
          exact .inr ⟨rfl, value, ttlSecs, next', rfl,
            fun reply => harmless_of_sends (hdone hnext' reply)⟩
        · exact .inl ⟨spares_sessKey hsid _ _,
            fun reply _ => harmless_of_sends (hdone hnext' reply)⟩
  | remove sid' => exact tame_of_sends (sends_remove sid')
  | removeUser user => exact tame_of_sends (sends_removeUser user)

theorem clears_bind {α : Type} {x : Call α} {f : α → Call PUnit} (hf : ∀ a, Clears sid (f a)) :
    Clears sid (x >>= f) := by
  induction x with
  | done result =>
    cases result with
    | ok a => exact hf a
    | error e => exact ⟨e, rfl⟩
  | send c next ih => exact fun reply => .inr (ih reply)

theorem clears_bind_left {x : Call PUnit} {f : PUnit → Call PUnit} (hx : Clears sid x) :
    Clears sid (x >>= f) := by
  induction x with
  | done result =>
    obtain ⟨e, rfl⟩ := hx
    exact ⟨e, rfl⟩
  | send c next ih => exact fun reply => (hx reply).imp id (ih reply)

theorem clears_del {f : Int64 → Call PUnit} : Clears sid (Connection.del (sessKey sid) >>= f) := by
  intro reply
  cases reply with
  | error e => exact .inr ⟨_, rfl⟩
  | ok v => exact .inl ⟨rfl, v, rfl⟩

theorem clears_remove (sid : Text) : Clears sid (remove sid) := clears_bind fun _ => clears_del

theorem clears_forM {f : Text → Int64 → Call PUnit} {sids : List Text} (h : sid ∈ sids) :
    Clears sid (sids.forM fun x => Connection.del (sessKey x) >>= f x) := by
  induction sids with
  | nil => simp at h
  | cons x sids ih =>
    by_cases hx : sid = x
    · subst hx
      exact clears_bind_left clears_del
    · exact clears_bind fun _ => ih ((List.mem_cons.mp h).resolve_left hx)

/-- A listing of the user's index is followed by the deletion of every session that it lists. -/
def Listing (user : Text) (x : Call PUnit) : Prop :=
  ∀ next, x = .send (.smembers (userKey user)) next → ∀ (s : Server) reply s',
    s.Answers (.smembers (userKey user)) reply s' → ∀ sid ∈ s.lists (userKey user),
      Clears sid (next reply)

theorem listing_removeUser (user : Text) : (removeUser user).Throughout (Listing user) := by
  constructor
  · intro next heq s reply s' ha sid hsid
    obtain ⟨-, rfl⟩ := Script.send.inj heq
    -- the client's reading of the reply has the session in it
    have hread : (Connection.smembers (userKey user)).wp Server.Answers
        (fun r _ => ∀ sids, r = .ok sids → sid ∈ sids) s := by
      refine Connection.wp_smembers (fun sids s₁ _ _ hperm _ sids' h => ?_) fun e s₁ _ _ sids h => ?_
      · cases h
        exact hperm.mem_iff.mpr hsid
      · simp at h
    have hclears {sids : List Text} (h : sid ∈ sids) : Clears sid ((sids.forM fun sid => do
        let _ ← Connection.del (sessKey sid)
        Connection.srem indexKey sid) >>= fun _ => do
      let _ ← Connection.del (userKey user)) := clears_bind_left (clears_forM h)
    cases reply with
    | error e => exact ⟨_, rfl⟩
    | ok v =>
      cases v with
      | array items => exact hclears (hread _ s' ha _ rfl)
      | nil => exact hclears (hread _ s' ha _ rfl)
      | _ => exact ⟨_, rfl⟩
  · intro reply
    have hnone {x : Call PUnit} (h : x.Sends fun c => ∀ key, c ≠ .smembers key) :
        x.Throughout (Listing user) := by
      refine h.throughout.mono fun y hy next heq => ?_
      rw [heq] at hy
      exact absurd rfl (hy.1 _)
    refine hnone (Script.sends_bind ?_ fun sids =>
      sends_removeListed (fun _ key => by simp) (fun _ _ key => by simp) user sids)
    cases reply with
    | error e => trivial
    | ok v => cases v <;> trivial

end Scripts

/-- The store has no session under the id, and no client is to store one but an insert of it. -/
def Clients.Gone (s : Clients) (sid : Text) : Prop :=
  s.server.Vacant sid ∧ ∀ i c, s.client i = some c →
    Harmless sid c.rest ∨ (∃ record, c.op = .insert sid record) ∧ Poised sid c.rest

structure Client.Ok (c : Client) : Prop where
  tame : ∀ sid, c.rest.Throughout (Tame c.op sid)
  listing : ∀ user, c.op = .removeUser user → c.rest.Throughout (Listing user)
  removal : ∀ sid ∈ c.owed, ∀ x, ¬Writes c.op x

structure Clients.Inv (s : Clients) : Prop where
  ok : ∀ i c, s.client i = some c → c.Ok
  owed : ∀ i c, s.client i = some c → ∀ sid ∈ c.owed, s.Gone sid ∨ Clears sid c.rest
  ended : ∀ sid ∈ s.ended, s.Gone sid

namespace Clients

variable {s s' : Clients} {i j : Nat} {sid : Text}

theorem client_put {c : Option Client} : (s.put i c).client j = if j = i then c else s.client j := rfl

theorem client_revive {sids : Set Text} {c : Client} (h : (s.revive sids).client j = some c) :
    ∃ c', s.client j = some c' ∧ c = { c' with owed := c'.owed \ sids } := by
  obtain ⟨c', hc', rfl⟩ := Option.map_eq_some_iff.mp h
  exact ⟨c', hc', rfl⟩

/-- What a command changes of the clients: the one that sent it, and what all of them owe. -/
theorem client_sent {server : Server} {c₀ c : Client} {cmd : Command}
    {reply : Except RedisError Value} {rest : Call PUnit}
    (h : (s.sent i c₀ cmd reply rest server).client j = some c) :
    (j = i ∧ c = { c₀ with
      rest, owed := (c₀.owed ∪ owedBy s.server cmd reply c₀.op) \ writtenBy cmd reply c₀.op }) ∨
      ∃ c', s.client j = some c' ∧
        c = { c' with owed := c'.owed \ writtenBy cmd reply c₀.op } := by
  obtain ⟨c', hc', rfl⟩ := client_revive h
  rw [client_put] at hc'
  split at hc'
  next hj =>
    cases Option.some.inj hc'
    exact .inl ⟨hj, rfl⟩
  next => exact .inr ⟨c', hc', rfl⟩

theorem harmless_write (store : RedisSessionStore) (op : SessionOp) :
    Harmless sid (store.write op) ∨
      (∃ record, op = .insert sid record) ∧ Poised sid (store.write op) := by
  obtain h | ⟨hwrites, hpoised⟩ := (@tame_write sid store op).now
  · exact .inl h
  · cases op with
    | insert sid' record =>
      cases hwrites
      exact .inr ⟨⟨record, rfl⟩, hpoised⟩
    | touch sid' time =>
      -- a touch starts with a read
      obtain ⟨value, ttlSecs, next, heq, -⟩ := hpoised
      obtain ⟨next', heq', -⟩ := touch_eq store sid' time
      cases heq'.symm.trans heq
    | remove sid' => exact hwrites.elim
    | removeUser user => exact hwrites.elim

/-- A session that is gone stays so, or is written again. -/
theorem Gone.step {store : RedisSessionStore} {event : ClientEvent} (h : s.Gone sid)
    (hstep : Step store s event s') :
    s'.Gone sid ∨ sid ∉ s'.ended ∧ ∀ j c, s'.client j = some c → sid ∉ c.owed := by
  obtain ⟨hvacant, hclients⟩ := h
  cases hstep with
  | @start i op hi =>
    refine .inl ⟨hvacant, fun j c hc => ?_⟩
    rw [client_put] at hc
    split at hc
    next =>
      cases Option.some.inj hc
      exact harmless_write store op
    next => exact hclients j c hc
  | @send i c cmd next reply server hi hrest ha =>
    have hothers (hvacant' : server.Vacant sid) (hnext : Harmless sid (next reply)) :
        (s.sent i c cmd reply (next reply) server).Gone sid := by
      refine ⟨hvacant', fun j c' hc' => ?_⟩
      obtain ⟨-, rfl⟩ | ⟨c'', hc'', rfl⟩ := client_sent hc'
      · exact .inl hnext
      · exact hclients j c'' hc''
    obtain hharmless | ⟨⟨record, hop⟩, value, ttlSecs, next', heq, hnext⟩ := hclients i c hi
    · rw [hrest] at hharmless
      obtain ⟨hvacant', hreply⟩ := vacant_answers hvacant hharmless.1 ha
      exact .inl (hothers hvacant' (hharmless.2 reply hreply))
    · obtain ⟨rfl, rfl⟩ := Script.send.inj (hrest.symm.trans heq)
      cases reply with
      | error e => exact .inl (hothers (vacant_refused hvacant ha) (hnext _))
      | ok v =>
        have hwritten : sid ∈ writtenBy (.setEx (sessKey sid) value ttlSecs) (.ok v) c.op := by
          rw [hop]
          exact ⟨rfl, ⟨value, ttlSecs, rfl⟩, v, rfl⟩
        refine .inr ⟨fun h => h.2 hwritten, fun j c' hc' h => ?_⟩
        obtain ⟨c'', -, rfl⟩ := client_revive hc'
        exact h.2 hwritten
  | @finish i c result hi hrest =>
    refine .inl ⟨hvacant, fun j c hc => ?_⟩
    rw [client_put] at hc
    split at hc
    next => simp at hc
    next => exact hclients j c hc
  | pass => exact .inl ⟨hvacant.pass, hclients⟩

theorem removal_of_owedBy {cmd : Command} {reply : Except RedisError Value} {op : SessionOp}
    {server : Server} (h : sid ∈ owedBy server cmd reply op) (x : Text) : ¬Writes op x := by
  cases op with
  | insert sid' record => exact h.elim
  | touch sid' time => exact h.elim
  | remove sid' => exact id
  | removeUser user => exact id

theorem ok_start (store : RedisSessionStore) (op : SessionOp) :
    (⟨op, store.write op, owedAtStart op⟩ : Client).Ok := by
  refine ⟨fun sid => tame_write store op, fun user hop => ?_, fun sid hsid x => ?_⟩
  · cases hop
    exact listing_removeUser user
  · cases op with
    | remove sid' => exact id
    | _ => exact hsid.elim

theorem ok_forget {c : Client} (h : c.Ok) (sids : Set Text) :
    ({ c with owed := c.owed \ sids } : Client).Ok :=
  ⟨h.tame, h.listing, fun sid hsid => h.removal sid hsid.1⟩

theorem ok_send {c : Client} {cmd : Command} {next : Except RedisError Value → Call PUnit}
    (h : c.Ok) (hrest : c.rest = .send cmd next) (server : Server)
    (reply : Except RedisError Value) : ({ c with
      rest := next reply
      owed := c.owed ∪ owedBy server cmd reply c.op } : Client).Ok := by
  obtain ⟨htame, hlisting, hremoval⟩ := h
  rw [hrest] at htame hlisting
  refine ⟨fun sid => (htame sid).2 reply, fun user hop => (hlisting user hop).2 reply, ?_⟩
  rintro sid (hsid | hsid)
  · exact hremoval sid hsid
  · exact removal_of_owedBy hsid

/-- A session that a removal deletes, while no touch of it is between its commands, is gone. -/
theorem gone_of_del {c : Client} {next : Except RedisError Value → Call PUnit} {v : Value}
    {server : Server} (h : s.Inv) (hi : s.client i = some c)
    (hrest : c.rest = .send (.del (sessKey sid)) next)
    (ha : s.server.Answers (.del (sessKey sid)) (.ok v) server)
    (hkept : RemovalKept s (.send i)) (hop : ∀ x, ¬Writes c.op x) :
    (s.sent i c (.del (sessKey sid)) (.ok v) (next (.ok v)) server).Gone sid := by
  refine ⟨vacant_del ha, fun j c' hc' => ?_⟩
  obtain ⟨-, rfl⟩ | ⟨c'', hc'', rfl⟩ := client_sent hc'
  · have htame := (h.ok i c hi).tame sid
    rw [hrest] at htame
    obtain hharmless | ⟨hwrites, -⟩ := (htame.2 (.ok v)).now
    · exact .inl hharmless
    · exact absurd hwrites (hop sid)
  · obtain hharmless | ⟨hwrites, hpoised⟩ := ((h.ok j c'' hc'').tame sid).now
    · exact .inl hharmless
    · have hholds := (hkept c _ next hi hrest).1 sid rfl j c'' hc''
      refine .inr ⟨?_, hpoised⟩
      obtain ⟨value, ttlSecs, next', heq, -⟩ := hpoised
      cases hop' : c''.op with
      | insert sid' record =>
        rw [hop'] at hwrites
        cases hwrites
        exact ⟨record, rfl⟩
      | touch sid' time =>
        rw [hop'] at hwrites
        cases hwrites
        exact absurd ⟨⟨time, hop'⟩, _, _, _, _, heq⟩ hholds
      | remove sid' =>
        rw [hop'] at hwrites
        exact hwrites.elim
      | removeUser user =>
        rw [hop'] at hwrites
        exact hwrites.elim

theorem Inv.send {c : Client} {cmd : Command} {next : Except RedisError Value → Call PUnit}
    {reply : Except RedisError Value} {server : Server} (store : RedisSessionStore) (h : s.Inv)
    (hkept : RemovalKept s (.send i)) (hi : s.client i = some c) (hrest : c.rest = .send cmd next)
    (ha : s.server.Answers cmd reply server) :
    (s.sent i c cmd reply (next reply) server).Inv := by
  have hstep : Step store s (.send i) (s.sent i c cmd reply (next reply) server) :=
    .send hi hrest ha
  refine ⟨fun j c' hc' => ?_, fun j c' hc' sid hsid => ?_, fun sid hsid => ?_⟩
  · obtain ⟨-, rfl⟩ | ⟨c'', hc'', rfl⟩ := client_sent hc'
    · exact ok_forget (ok_send (h.ok i c hi) hrest s.server reply) _
    · exact ok_forget (h.ok j c'' hc'') _
  · have hgone (hg : s.Gone sid) := (hg.step hstep).resolve_right fun hr => hr.2 j c' hc' hsid
    obtain ⟨-, rfl⟩ | ⟨c'', hc'', rfl⟩ := client_sent hc'
    · obtain ⟨hsid | hsid, -⟩ := hsid
      · obtain hg | hclears := h.owed i c hi sid hsid
        · exact .inl (hgone hg)
        · rw [hrest] at hclears
          obtain ⟨rfl, v, rfl⟩ | hclears := hclears reply
          · exact .inl (gone_of_del h hi hrest ha hkept ((h.ok i c hi).removal sid hsid))
          · exact .inr hclears
      · have hdel (hdel : cmd = .del (sessKey sid) ∧ ∃ v, reply = .ok v) :
            (s.sent i c cmd reply (next reply) server).Gone sid := by
          obtain ⟨rfl, v, rfl⟩ := hdel
          exact gone_of_del h hi hrest ha hkept (removal_of_owedBy hsid)
        cases hop : c.op with
        | insert sid' record =>
          rw [hop] at hsid
          exact hsid.elim
        | touch sid' time =>
          rw [hop] at hsid
          exact hsid.elim
        | remove sid' =>
          rw [hop] at hsid
          exact .inl (hdel hsid)
        | removeUser user =>
          rw [hop] at hsid
          obtain ⟨rfl, r, hr, huser⟩ | hsid := hsid
          · have hlisted := (hkept c _ next hi hrest).2 user rfl sid r hr huser
            have hlisting := ((h.ok i c hi).listing user hop).now
            exact .inr (hlisting next hrest s.server reply server ha sid hlisted)
          · exact .inl (hdel hsid)
    · exact (h.owed j c'' hc'' sid hsid.1).imp hgone id
  · exact ((h.ended sid hsid.1).step hstep).resolve_right fun hr => hr.1 hsid

theorem Inv.step {store : RedisSessionStore} {event : ClientEvent} (h : s.Inv)
    (hkept : RemovalKept s event) (hstep : Step store s event s') : s'.Inv := by
  have hgone {sid : Text} (hg : s.Gone sid) := hg.step hstep
  cases hstep with
  | @start i op hi =>
    refine ⟨fun j c hc => ?_, fun j c hc sid hsid => ?_, fun sid hsid => ?_⟩
    · rw [client_put] at hc
      split at hc
      next =>
        cases Option.some.inj hc
        exact ok_start store op
      next => exact h.ok j c hc
    · have hc' := hc
      rw [client_put] at hc
      split at hc
      next =>
        cases Option.some.inj hc
        cases op with
        | remove sid' =>
          cases hsid
          exact .inr (clears_remove sid)
        | _ => exact hsid.elim
      next =>
        refine (h.owed j c hc sid hsid).imp (fun hg => ?_) id
        exact (hgone hg).resolve_right fun hr => hr.2 j c hc' hsid
    · exact (hgone (h.ended sid hsid)).resolve_right fun hr => hr.1 hsid
  | @send i c cmd next reply server hi hrest ha => exact h.send store hkept hi hrest ha
  | @finish i c result hi hrest =>
    have hclient {j : Nat} {c' : Client} (hc : (({ s with ended := s.ended ∪ c.returned result } :
        Clients).put i none).client j = some c') : s.client j = some c' := by
      rw [client_put] at hc
      split at hc
      next => simp at hc
      next => exact hc
    have hkeeps {sid : Text} (hg : s.Gone sid) : (({ s with
        ended := s.ended ∪ c.returned result } : Clients).put i none).Gone sid :=
      ⟨hg.1, fun j c' hc => hg.2 j c' (hclient hc)⟩
    refine ⟨fun j c' hc => h.ok j c' (hclient hc), fun j c' hc sid hsid => ?_, fun sid hsid => ?_⟩
    · exact (h.owed j c' (hclient hc) sid hsid).imp hkeeps id
    · obtain hsid | hsid := hsid
      · exact hkeeps (h.ended sid hsid)
      · cases result with
        | error e => exact hsid.elim
        | ok _ =>
          obtain hg | hclears := h.owed i c hi sid hsid
          · exact hkeeps hg
          · rw [hrest] at hclears
            obtain ⟨e, he⟩ := hclears
            simp at he
  | pass =>
    refine ⟨h.ok, fun j c hc sid hsid => ?_, fun sid hsid => ?_⟩
    · refine (h.owed j c hc sid hsid).imp (fun hg => ?_) id
      exact (hgone hg).resolve_right fun hr => hr.2 j c hc hsid
    · exact (hgone (h.ended sid hsid)).resolve_right fun hr => hr.1 hsid

end Clients

namespace RedisSessionStore

/-- In every run in which no removal deletes a session that a touch has read and not yet written,
nor misses one in the index, the sessions that removals have ended are not in the store. -/
theorem reach_absent (store : RedisSessionStore) {s : Clients}
    (h : store.clients.Reach RemovalKept s) : ∀ sid ∈ s.ended, s.server.Absent sid := by
  have hinv : s.Inv := by
    refine @System.Reach.invariant _ _ _ _ Clients.Inv (fun s hs => ?_)
      (fun s event s' hinv hkept hstep => hinv.step hkept hstep) s h
    obtain ⟨hnone, hended⟩ := hs
    refine ⟨fun i c hc => ?_, fun i c hc => ?_, fun sid hsid => ?_⟩
    · rw [hnone] at hc
      simp at hc
    · rw [hnone] at hc
      simp at hc
    · rw [hended] at hsid
      exact hsid.elim
  exact fun sid hsid => (hinv.ended sid hsid).1.absent

end RedisSessionStore

namespace Clients

def began (s : Clients) (store : RedisSessionStore) (i : Nat) (op : SessionOp) : Clients :=
  s.put i (some ⟨op, store.write op, owedAtStart op⟩)

/-- The next of a client's commands, a set listed in the order it is in, or its return. -/
def exec (s : Clients) (i : Nat) : Clients :=
  match s.client i with
  | some c =>
    match c.rest with
    | .send cmd next =>
      s.sent i c cmd (s.server.exec cmd).1 (next (s.server.exec cmd).1) (s.server.exec cmd).2
    | .done result => ({ s with ended := s.ended ∪ c.returned result }).put i none
  | none => s

theorem reach_exec {store : RedisSessionStore} {ok : Clients → ClientEvent → Prop} {s : Clients}
    {i : Nat} (h : store.clients.Reach ok s) (hsend : ok s (.send i)) (hfinish : ok s (.finish i)) :
    store.clients.Reach ok (s.exec i) := by
  unfold exec
  split
  next c hi =>
    split
    next cmd next hrest =>
      exact .step (e := .send i) h hsend (.send hi hrest (s.server.answers_exec cmd))
    next result hrest => exact .step (e := .finish i) h hfinish (.finish hi hrest)
  next => exact h

theorem op_exec {s : Clients} {i j : Nat} {c : Client} (h : (s.exec i).client j = some c) :
    ∃ c', s.client j = some c' ∧ c.op = c'.op := by
  unfold exec at h
  split at h
  next c₀ hi =>
    split at h
    next =>
      obtain ⟨rfl, rfl⟩ | ⟨c', hc', rfl⟩ := client_sent h
      · exact ⟨c₀, hi, rfl⟩
      · exact ⟨c', hc', rfl⟩
    next =>
      rw [client_put] at h
      split at h
      next => simp at h
      next => exact ⟨c, h, rfl⟩
  next => exact ⟨c, h, rfl⟩

/-- A server on which a session was inserted. -/
def inserted : Clients where
  server :=
    ((RedisSessionStore.insert ⟨10⟩ ['a'] ⟨"alice".toList, 0, 0, []⟩).run Server.exec
      ⟨0, fun _ => none⟩).2

/-- A touch has read the session. -/
def afterRead : Clients := (inserted.began ⟨10⟩ 0 (.touch ['a'] 9)).exec 0

/-- A removal then deletes it and returns, and the touch writes it back. -/
def afterRace : Clients :=
  ((((((afterRead.began ⟨10⟩ 1 (.remove ['a'])).exec 1).exec 1).exec 1).exec 1).exec 1).exec 0

/-- The removal alone. -/
def afterRemoval : Clients :=
  (((((inserted.began ⟨10⟩ 0 (.remove ['a'])).exec 0).exec 0).exec 0).exec 0).exec 0

end Clients

namespace RedisSessionStore

theorem reach_absent_removal : Clients.afterRemoval.server.Absent ['a'] := by
  have hnext {s : Clients} (h : (⟨10⟩ : RedisSessionStore).clients.Reach RemovalKept s ∧
      ∀ j c, s.client j = some c → c.op = .remove ['a'])
      (hplain : ∀ c cmd next, s.client 0 = some c → c.rest = .send cmd next →
        ∀ key, cmd ≠ .smembers key) :
      (⟨10⟩ : RedisSessionStore).clients.Reach RemovalKept (s.exec 0) ∧
        ∀ j c, (s.exec 0).client j = some c → c.op = .remove ['a'] := by
    refine ⟨Clients.reach_exec h.1 (fun c cmd next hc hrest => ⟨?_, ?_⟩) trivial, ?_⟩
    · rintro sid - j c' hc' ⟨⟨time, htouch⟩, -⟩
      rw [h.2 j c' hc'] at htouch
      simp at htouch
    · exact fun user hcmd => absurd hcmd (hplain c cmd next hc hrest (userKey user))
    · intro j c hc
      obtain ⟨c', hc', hop⟩ := Clients.op_exec hc
      rw [hop, h.2 j c' hc']
  have h₀ : (⟨10⟩ : RedisSessionStore).clients.Reach RemovalKept
        (Clients.inserted.began ⟨10⟩ 0 (.remove ['a'])) ∧
      ∀ j c, (Clients.inserted.began ⟨10⟩ 0 (.remove ['a'])).client j = some c →
        c.op = .remove ['a'] := by
    refine ⟨.step (e := .start 0 (.remove ['a'])) (.start ⟨fun _ => rfl, rfl⟩) trivial (.start rfl),
      fun j c hc => ?_⟩
    unfold Clients.began at hc
    rw [Clients.client_put] at hc
    split at hc
    next =>
      cases Option.some.inj hc
      rfl
    next => simp [Clients.inserted] at hc
  have h₁ := hnext h₀ (by rintro c cmd next hc hrest key rfl; cases hc; cases hrest)
  have h₂ := hnext h₁ (by rintro c cmd next hc hrest key rfl; cases hc; cases hrest)
  have h₃ := hnext h₂ (by rintro c cmd next hc hrest key rfl; cases hc; cases hrest)
  have h₄ := hnext h₃ (by rintro c cmd next hc hrest key rfl; cases hc; cases hrest)
  have h₅ := hnext h₄ (by rintro c cmd next hc hrest key rfl; cases hc; cases hrest)
  have hended : ['a'] ∈ Clients.afterRemoval.ended :=
    .inr ⟨.inl ⟨.inl ⟨.inl ⟨.inl rfl, id⟩, id⟩, id⟩, id⟩
  exact reach_absent ⟨10⟩ h₅.1 ['a'] hended

theorem reachable_exec {store : RedisSessionStore} {s : Clients} (i : Nat)
    (h : store.clients.Reachable s) : store.clients.Reachable (s.exec i) :=
  Clients.reach_exec h trivial trivial

theorem reachable_began {store : RedisSessionStore} {s : Clients} {i : Nat} (op : SessionOp)
    (h : store.clients.Reachable s) (hi : s.client i = none) :
    store.clients.Reachable (s.began store i op) := .step (e := .start i op) h trivial (.start hi)

theorem reachable_afterRace :
    (⟨10⟩ : RedisSessionStore).clients.Reachable Clients.afterRace := by
  have hstart : (⟨10⟩ : RedisSessionStore).clients.Reachable Clients.inserted :=
    .start ⟨fun _ => rfl, rfl⟩
  have hread : (⟨10⟩ : RedisSessionStore).clients.Reachable Clients.afterRead :=
    reachable_exec 0 (reachable_began (.touch ['a'] 9) hstart rfl)
  have hremove := reachable_began (i := 1) (.remove ['a']) hread rfl
  unfold Clients.afterRace
  exact reachable_exec 0 (reachable_exec 1 (reachable_exec 1 (reachable_exec 1 (reachable_exec 1
    (reachable_exec 1 hremove)))))

theorem mem_ended_afterRace : ['a'] ∈ Clients.afterRace.ended :=
  ⟨.inr ⟨.inl ⟨.inl ⟨.inl ⟨.inl rfl, id⟩, id⟩, id⟩, id⟩, id⟩

theorem get_afterRace : ((get ['a']).run Server.exec Clients.afterRace.server).1 =
    .ok (some ⟨"alice".toList, 0, 9, []⟩) := rfl

theorem not_reach_absent :
    ¬∀ (store : RedisSessionStore) (s : Clients), store.clients.Reachable s →
      ∀ sid ∈ s.ended, s.server.Absent sid := by
  intro h
  obtain hnone | ⟨hindex, -⟩ := h ⟨10⟩ Clients.afterRace reachable_afterRace ['a']
    mem_ended_afterRace _ _ (Script.runs_run Server.answers_exec _ _)
  · rw [get_afterRace] at hnone
    simp at hnone
  · exact absurd hindex (by decide)

end RedisSessionStore

end Kernway.Redis
