import Kernway.Resp

namespace Kernway.Redis

/-- The members of a set, in the order the server lists them. -/
structure Members where
  items : List Text
  nodup : items.Nodup

namespace Members

def empty : Members := ⟨[], .nil⟩

def insert (ms : Members) (m : Text) : Members :=
  if h : m ∈ ms.items then ms else ⟨m :: ms.items, List.nodup_cons.mpr ⟨h, ms.nodup⟩⟩

def erase (ms : Members) (m : Text) : Members :=
  ⟨ms.items.filter fun x => decide (x ≠ m), ms.nodup.filter _⟩

theorem mem_insert {ms : Members} {m x : Text} :
    x ∈ (ms.insert m).items ↔ x = m ∨ x ∈ ms.items := by
  unfold insert
  split
  next h =>
    constructor
    · exact Or.inr
    · rintro (rfl | hx)
      · exact h
      · exact hx
  next => exact List.mem_cons

theorem mem_erase {ms : Members} {m x : Text} :
    x ∈ (ms.erase m).items ↔ x ∈ ms.items ∧ x ≠ m := by
  simp [erase]

end Members

inductive Stored
  | string (bytes : Bytes)
  | set (members : Members)

/-- What a key holds, and the time, in milliseconds, that it expires after. -/
structure Entry where
  stored : Stored
  expires : Option Nat := none

def Entry.live (entry : Entry) (now : Nat) : Bool :=
  match entry.expires with
  | some t => decide (now ≤ t)
  | none => true

structure Server where
  now : Nat
  keys : Text → Option Entry := fun _ => none

inductive Command
  | get (key : Text)
  | setEx (key : Text) (value : Bytes) (ttlSecs : UInt64)
  | del (key : Text)
  | sadd (key member : Text)
  | srem (key member : Text)
  | smembers (key : Text)
  | expire (key : Text) (ttlSecs : UInt64)
  | scard (key : Text)

namespace Command

def key : Command → Text
  | get key | setEx key _ _ | del key | sadd key _ | srem key _ | smembers key | expire key _
  | scard key => key

def args : Command → List Bytes
  | get key => [word "GET", encodeUtf8 key]
  | setEx key value ttlSecs => [word "SET", encodeUtf8 key, value, word "EX", decimal ttlSecs]
  | del key => [word "DEL", encodeUtf8 key]
  | sadd key member => [word "SADD", encodeUtf8 key, encodeUtf8 member]
  | srem key member => [word "SREM", encodeUtf8 key, encodeUtf8 member]
  | smembers key => [word "SMEMBERS", encodeUtf8 key]
  | expire key ttlSecs => [word "EXPIRE", encodeUtf8 key, decimal ttlSecs]
  | scard key => [word "SCARD", encodeUtf8 key]
where
  word (s : String) : Bytes := encodeUtf8 s.toList
  decimal (n : UInt64) : Bytes := encodeUtf8 (Nat.toDigits 10 n.toNat)

end Command

/-- `proto-max-bulk-len`. -/
def maxBulk : Nat := 512 * 1024 * 1024

def Command.Short (c : Command) : Prop := ∀ arg ∈ c.args, arg.length ≤ maxBulk

instance (c : Command) : Decidable c.Short := inferInstanceAs (Decidable (∀ _ ∈ _, _))

def wrongType : RedisError :=
  .server "WRONGTYPE Operation against a key holding the wrong kind of value".toList

def invalidExpire : RedisError := .server "ERR invalid expire time".toList

/-- The time a key expires after, where the server's clock can hold it. -/
def expiry (now : Nat) (ttlSecs : UInt64) : Option Nat :=
  if now + 1000 * ttlSecs.toNat < 2 ^ 63 then some (now + 1000 * ttlSecs.toNat) else none

/-- What a command answers and leaves, from what is live at its key. -/
def Command.act (now : Nat) (entry : Option Entry) :
    Command → Except RedisError Value × Option Entry
  | get _ =>
    match entry with
    | none => (.ok .nil, none)
    | some ⟨.string bytes, expires⟩ => (.ok (.bulk bytes), some ⟨.string bytes, expires⟩)
    | some ⟨.set ms, expires⟩ => (.error wrongType, some ⟨.set ms, expires⟩)
  | setEx _ value ttlSecs =>
    match expiry now ttlSecs with
    | some t =>
      if ttlSecs = 0 then (.error invalidExpire, entry)
      else (.ok (.simple "OK".toList), some ⟨.string value, some t⟩)
    | none => (.error invalidExpire, entry)
  | del _ => (.ok (.int (if entry.isSome then 1 else 0)), none)
  | sadd _ member =>
    match entry with
    | none => (.ok (.int 1), some ⟨.set (Members.empty.insert member), none⟩)
    | some ⟨.string bytes, expires⟩ => (.error wrongType, some ⟨.string bytes, expires⟩)
    | some ⟨.set ms, expires⟩ =>
      (.ok (.int (if member ∈ ms.items then 0 else 1)), some ⟨.set (ms.insert member), expires⟩)
  | srem _ member =>
    match entry with
    | none => (.ok (.int 0), none)
    | some ⟨.string bytes, expires⟩ => (.error wrongType, some ⟨.string bytes, expires⟩)
    | some ⟨.set ms, expires⟩ =>
      (.ok (.int (if member ∈ ms.items then 1 else 0)),
        if (ms.erase member).items = [] then none else some ⟨.set (ms.erase member), expires⟩)
  | smembers _ =>
    match entry with
    | none => (.ok (.array []), none)
    | some ⟨.string bytes, expires⟩ => (.error wrongType, some ⟨.string bytes, expires⟩)
    | some ⟨.set ms, expires⟩ =>
      (.ok (.array (ms.items.map fun m => .bulk (encodeUtf8 m))), some ⟨.set ms, expires⟩)
  | expire _ ttlSecs =>
    match expiry now ttlSecs, entry with
    | none, entry => (.error invalidExpire, entry)
    | some _, none => (.ok (.int 0), none)
    | some t, some entry =>
      (.ok (.int 1), if ttlSecs = 0 then none else some { entry with expires := some t })
  | scard _ =>
    match entry with
    | none => (.ok (.int 0), none)
    | some ⟨.string bytes, expires⟩ => (.error wrongType, some ⟨.string bytes, expires⟩)
    | some ⟨.set ms, expires⟩ => (.ok (.int (Int64.ofNat ms.items.length)), some ⟨.set ms, expires⟩)

theorem Command.live_act {c : Command} {now : Nat} {entry : Option Entry}
    (h : ∀ e, entry = some e → e.live now = true) {e : Entry}
    (he : (c.act now entry).2 = some e) : e.live now = true := by
  have hexpiry {ttlSecs : UInt64} {t : Nat} (ht : expiry now ttlSecs = some t) : now ≤ t := by
    unfold expiry at ht
    split at ht
    next =>
      cases Option.some.inj ht
      exact Nat.le_add_right now _
    next => simp at ht
  cases c with
  | setEx key value ttlSecs =>
    simp only [act] at he
    split at he
    next t ht =>
      split at he
      next => exact h e he
      next =>
        cases Option.some.inj he
        simpa [Entry.live] using hexpiry ht
    next => exact h e he
  | expire key ttlSecs =>
    simp only [act] at he
    split at he
    next => exact h e he
    next => simp at he
    next t entry ht =>
      split at he
      next => simp at he
      next =>
        cases Option.some.inj he
        simpa [Entry.live] using hexpiry ht
  | sadd key member =>
    simp only [act] at he
    split at he
    next =>
      cases Option.some.inj he
      rfl
    next => exact h e he
    next ms expires =>
      cases Option.some.inj he
      exact h ⟨.set ms, expires⟩ rfl
  | srem key member =>
    simp only [act] at he
    split at he
    next => simp at he
    next => exact h e he
    next ms expires =>
      dsimp only at he
      split at he
      next => simp at he
      next =>
        cases Option.some.inj he
        exact h ⟨.set ms, expires⟩ rfl
  | del key => simp [act] at he
  | get key =>
    simp only [act] at he
    split at he <;> exact h e he
  | smembers key =>
    simp only [act] at he
    split at he <;> exact h e he
  | scard key =>
    simp only [act] at he
    split at he <;> exact h e he

/-- Only `SET` makes a key hold a string, and only `SADD` makes a set of one that holds nothing. -/
theorem Command.act_set {c : Command} {now : Nat} {entry : Option Entry} {e : Entry}
    (hset : ∀ e, entry = some e → ∃ ms, e.stored = .set ms)
    (hc : ∀ key value ttlSecs, c ≠ .setEx key value ttlSecs) (he : (c.act now entry).2 = some e) :
    (∃ ms, e.stored = .set ms) ∧ (entry ≠ none ∨ ∃ key member, c = .sadd key member) := by
  cases hentry : entry with
  | none =>
    rw [hentry] at he
    cases c with
    | setEx key value ttlSecs => exact absurd rfl (hc key value ttlSecs)
    | sadd key member =>
      cases Option.some.inj he
      exact ⟨⟨_, rfl⟩, .inr ⟨key, member, rfl⟩⟩
    | expire key ttlSecs =>
      simp only [act] at he
      split at he
      next => simp at he
      next => simp at he
      next heq => simp at heq
    | _ => simp [act] at he
  | some e₀ =>
    obtain ⟨stored, expires⟩ := e₀
    obtain ⟨ms, hms⟩ := hset _ hentry
    cases hms
    refine ⟨?_, .inl (by simp)⟩
    rw [hentry] at he
    cases c with
    | setEx key value ttlSecs => exact absurd rfl (hc key value ttlSecs)
    | del key => simp [act] at he
    | srem key member =>
      simp only [act] at he
      split at he
      next => simp at he
      next =>
        cases Option.some.inj he
        exact ⟨_, rfl⟩
    | expire key ttlSecs =>
      simp only [act] at he
      split at he
      next =>
        cases Option.some.inj he
        exact ⟨ms, rfl⟩
      next => simp at he
      next t e' _ heq =>
        cases Option.some.inj heq
        split at he
        next => simp at he
        next =>
          cases Option.some.inj he
          exact ⟨ms, rfl⟩
    | _ =>
      cases Option.some.inj he
      exact ⟨_, rfl⟩

/-- What a key holds, until it expires. -/
def Server.entry (s : Server) (key : Text) : Option Entry :=
  (s.keys key).filter fun e => e.live s.now

def Server.set (s : Server) (key : Text) (entry : Option Entry) : Server :=
  { s with keys := fun k => if k = key then entry else s.keys k }

/-- A key past its time is deleted as a command comes to it. -/
def Server.exec (s : Server) (c : Command) : Except RedisError Value × Server :=
  if c.Short then
    let (reply, left) := c.act s.now (s.entry c.key)
    (reply, s.set c.key left)
  else (.error (.server "Protocol error: invalid bulk length".toList), s)

def Server.pass (s : Server) (millis : Nat) : Server := { s with now := s.now + millis }

/-- A set is listed in any order. -/
inductive Reordered : Except RedisError Value → Except RedisError Value → Prop
  | same (reply : Except RedisError Value) : Reordered reply reply
  | array {items items' : List Value} : items.Perm items' →
      Reordered (.ok (.array items)) (.ok (.array items'))

def Server.Answers (s : Server) (c : Command) (reply : Except RedisError Value) (s' : Server) :
    Prop :=
  Reordered (s.exec c).1 reply ∧ s' = (s.exec c).2

/-- The state that is another but for what one key holds. -/
def Server.Left (s : Server) (key : Text) (entry : Option Entry) (s' : Server) : Prop :=
  s'.now = s.now ∧ ∀ k, s'.entry k = if k = key then entry else s.entry k

namespace Server

variable {s s' : Server}

theorem live_of_entry {key : Text} {e : Entry} (h : s.entry key = some e) :
    e.live s.now = true :=
  (Option.filter_eq_some_iff.mp h).2

theorem entry_pass {key : Text} {e : Entry} {millis : Nat}
    (h : (s.pass millis).entry key = some e) : s.entry key = some e := by
  obtain ⟨hk, hl⟩ := Option.filter_eq_some_iff.mp h
  refine Option.filter_eq_some_iff.mpr ⟨hk, ?_⟩
  have hnow : s.now ≤ (s.pass millis).now := Nat.le_add_right s.now millis
  unfold Entry.live at hl ⊢
  split
  next t ht =>
    simp only [ht, decide_eq_true_eq] at hl ⊢
    omega
  next => rfl

theorem entry_pass_of_ne_none {key : Text} {millis : Nat}
    (h : (s.pass millis).entry key ≠ none) : (s.pass millis).entry key = s.entry key := by
  obtain ⟨e, he⟩ := Option.ne_none_iff_exists'.mp h
  rw [he, entry_pass he]

theorem entry_pass_of_lasting {key : Text} {stored : Stored} {millis : Nat}
    (h : s.entry key = some ⟨stored, none⟩) : (s.pass millis).entry key = s.entry key := by
  rw [h]
  exact Option.filter_eq_some_iff.mpr ⟨(Option.filter_eq_some_iff.mp h).1, rfl⟩

theorem answers_exec (s : Server) (c : Command) : s.Answers c (s.exec c).1 (s.exec c).2 :=
  ⟨.same _, rfl⟩

theorem Left.refl (s : Server) (key : Text) : s.Left key (s.entry key) s := by
  refine ⟨rfl, fun k => ?_⟩
  split
  next h => rw [h]
  next => rfl

theorem Left.entry_self {key : Text} {entry : Option Entry} (h : s.Left key entry s') :
    s'.entry key = entry := by
  rw [h.2, if_pos rfl]

theorem Left.entry_same {key : Text} (h : s.Left key (s.entry key) s') (k : Text) :
    s'.entry k = s.entry k := by
  rw [h.2]
  split
  next hk => rw [hk]
  next => rfl

theorem left_set {key : Text} {entry : Option Entry}
    (h : ∀ e, entry = some e → e.live s.now = true) : s.Left key entry (s.set key entry) := by
  refine ⟨rfl, fun k => ?_⟩
  unfold Server.entry set
  dsimp only
  split
  next =>
    cases entry with
    | none => rfl
    | some e => rw [Option.filter_some, if_pos (h e rfl)]
  next => rfl

/-- A command answers from what its key holds and leaves all other keys as they are. -/
theorem Answers.left {c : Command} {reply : Except RedisError Value} (h : s.Answers c reply s')
    (hc : c.Short) : Reordered (c.act s.now (s.entry c.key)).1 reply ∧
      s.Left c.key (c.act s.now (s.entry c.key)).2 s' := by
  obtain ⟨hr, rfl⟩ := h
  unfold exec at hr ⊢
  rw [if_pos hc] at hr ⊢
  refine ⟨hr, left_set fun e he => ?_⟩
  exact Command.live_act (fun e he => live_of_entry he) he

theorem Answers.refused {c : Command} {reply : Except RedisError Value} (h : s.Answers c reply s')
    (hc : ¬c.Short) : (∃ e, reply = .error e) ∧ s' = s := by
  obtain ⟨hr, rfl⟩ := h
  unfold exec at hr ⊢
  rw [if_neg hc] at hr ⊢
  cases hr with
  | same => exact ⟨⟨_, rfl⟩, rfl⟩

end Server

end Kernway.Redis
