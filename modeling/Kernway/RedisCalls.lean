import Kernway.RedisKeys
import Kernway.Scripts

namespace Kernway.Redis

/-- What a call fails with: what the client failed with, or a reply of another shape than its
command is due. -/
inductive StoreError
  | client (err : RedisError)
  | unexpected (command : Text) (got : Value)

abbrev Call := Script Command (Except RedisError Value) StoreError

namespace Connection

def call (c : Command) : Call Value :=
  .send c fun reply => .done (reply.mapError .client)

def get (key : Text) : Call (Option Bytes) := do
  match ← call (.get key) with
  | .bulk bytes => return some bytes
  | .nil => return none
  | other => .done (.error (.unexpected "GET".toList other))

def setEx (key : Text) (value : Bytes) (ttlSecs : UInt64) : Call PUnit := do
  let _ ← call (.setEx key value ttlSecs)

def del (key : Text) : Call Int64 := do
  match ← call (.del key) with
  | .int n => return n
  | _ => return 0

def sadd (key member : Text) : Call PUnit := do
  let _ ← call (.sadd key member)

def srem (key member : Text) : Call PUnit := do
  let _ ← call (.srem key member)

/-- A member of the set; one that is not UTF-8 is skipped. -/
def listed : Value → Option Text
  | .bulk bytes => decodeUtf8 bytes
  | _ => none

def smembers (key : Text) : Call (List Text) := do
  match ← call (.smembers key) with
  | .array items => return items.filterMap listed
  | .nil => return []
  | other => .done (.error (.unexpected "SMEMBERS".toList other))

def expire (key : Text) (ttlSecs : UInt64) : Call PUnit := do
  let _ ← call (.expire key ttlSecs)

def scard (key : Text) : Call Int64 := do
  match ← call (.scard key) with
  | .int n => return n
  | _ => return 0

end Connection

/-- The members of the set at a key. -/
def membersOf : Option Entry → List Text
  | some ⟨.set ms, _⟩ => ms.items
  | _ => []

theorem membersOf_erased (ms : Members) (expires : Option Nat) :
    membersOf (if ms.items = [] then none else some ⟨.set ms, expires⟩) = ms.items := by
  split
  next hnil => exact hnil.symm
  next => rfl

theorem membersOf_expires (entry : Option Entry) (t : Option Nat) :
    membersOf (entry.map fun e => { e with expires := t }) = membersOf entry := by
  cases entry with
  | none => rfl
  | some e =>
    obtain ⟨stored, expires⟩ := e
    cases stored with
    | string bytes => rfl
    | set ms => rfl

def Server.lists (s : Server) (key : Text) : List Text := membersOf (s.entry key)

theorem Server.nodup_lists (s : Server) (key : Text) : (s.lists key).Nodup := by
  unfold Server.lists membersOf
  split
  next ms _ _ => exact ms.nodup
  next => exact List.nodup_nil

def Server.IsSet (s : Server) (key : Text) : Prop :=
  ∀ e, s.entry key = some e → ∃ ms, e.stored = .set ms

theorem Server.Left.lists {s s' : Server} {key : Text} {entry : Option Entry}
    (h : s.Left key entry s') (k : Text) :
    s'.lists k = if k = key then membersOf entry else s.lists k := by
  unfold Server.lists
  rw [h.2 k]
  split <;> rfl

namespace Command

theorem short_of_key {c : Command} {name key : Bytes} (hargs : c.args = [name, key])
    (hname : name.length ≤ maxBulk) (hkey : key.length ≤ maxBulk) : c.Short := by
  unfold Short
  rw [hargs]
  simp only [List.forall_mem_cons]
  exact ⟨hname, hkey, by simp⟩

theorem short_of_pair {c : Command} {name key value : Bytes} (hargs : c.args = [name, key, value])
    (hname : name.length ≤ maxBulk) (hkey : key.length ≤ maxBulk) (hvalue : value.length ≤ maxBulk) :
    c.Short := by
  unfold Short
  rw [hargs]
  simp only [List.forall_mem_cons]
  exact ⟨hname, hkey, hvalue, by simp⟩

theorem short_get {key : Text} (h : (encodeUtf8 key).length ≤ maxBulk) : (get key).Short :=
  short_of_key rfl (by decide) h

theorem short_del {key : Text} (h : (encodeUtf8 key).length ≤ maxBulk) : (del key).Short :=
  short_of_key rfl (by decide) h

theorem short_smembers {key : Text} (h : (encodeUtf8 key).length ≤ maxBulk) :
    (smembers key).Short := short_of_key rfl (by decide) h

theorem short_scard {key : Text} (h : (encodeUtf8 key).length ≤ maxBulk) :
    (scard key).Short := short_of_key rfl (by decide) h

theorem short_sadd {key member : Text} (hkey : (encodeUtf8 key).length ≤ maxBulk)
    (hmember : (encodeUtf8 member).length ≤ maxBulk) : (sadd key member).Short :=
  short_of_pair rfl (by decide) hkey hmember

theorem short_expire {key : Text} {ttlSecs : UInt64} (hkey : (encodeUtf8 key).length ≤ maxBulk)
    (httl : (args.decimal ttlSecs).length ≤ maxBulk) : (expire key ttlSecs).Short :=
  short_of_pair rfl (by decide) hkey httl

theorem short_srem {key member : Text} (hkey : (encodeUtf8 key).length ≤ maxBulk)
    (hmember : (encodeUtf8 member).length ≤ maxBulk) : (srem key member).Short :=
  short_of_pair rfl (by decide) hkey hmember

end Command

namespace Connection

variable {s : Server}

theorem wp_get {key : Text} {post : Except StoreError (Option Bytes) → Server → Prop}
    (hok : ∀ o s', (Command.get key).Short → s.Left key (s.entry key) s' →
      (s.entry key).map Entry.stored = o.map Stored.string → post (.ok o) s')
    (herr : ∀ e s', ((Command.get key).Short → s.entry key ≠ none) → s.Left key (s.entry key) s' →
      post (.error e) s') :
    (get key).wp Server.Answers post s := by
  intro reply s' ha
  by_cases hshort : (Command.get key).Short
  · obtain ⟨hreply, hleft⟩ := ha.left hshort
    simp only [Command.act, Command.key] at hreply hleft
    split at hreply
    next he =>
      cases hreply with
      | same => exact hok none s' hshort (by rwa [he] at hleft ⊢) (by rw [he]; rfl)
    next bytes expires he =>
      cases hreply with
      | same => exact hok (some bytes) s' hshort (by rwa [he] at hleft ⊢) (by rw [he]; rfl)
    next ms expires he =>
      cases hreply with
      | same => exact herr _ s' (fun _ => by simp [he]) (by rwa [he] at hleft ⊢)
  · obtain ⟨⟨e, rfl⟩, rfl⟩ := ha.refused hshort
    exact herr _ s' (fun h => absurd h hshort) (.refl s' key)

theorem wp_setEx {key : Text} {value : Bytes} {ttlSecs : UInt64}
    {post : Except StoreError PUnit → Server → Prop}
    (hok : ∀ t s', (Command.setEx key value ttlSecs).Short → expiry s.now ttlSecs = some t →
      ttlSecs ≠ 0 → s.Left key (some ⟨.string value, some t⟩) s' → post (.ok ⟨⟩) s')
    (herr : ∀ e s', s.Left key (s.entry key) s' → post (.error e) s') :
    (setEx key value ttlSecs).wp Server.Answers post s := by
  intro reply s' ha
  by_cases hshort : (Command.setEx key value ttlSecs).Short
  · obtain ⟨hreply, hleft⟩ := ha.left hshort
    simp only [Command.act, Command.key] at hreply hleft
    split at hreply
    next t ht =>
      simp only [ht] at hleft
      split at hreply
      next hzero =>
        rw [if_pos hzero] at hleft
        cases hreply with
        | same => exact herr _ s' hleft
      next hzero =>
        rw [if_neg hzero] at hleft
        cases hreply with
        | same => exact hok t s' hshort ht hzero hleft
    next ht =>
      simp only [ht] at hleft
      cases hreply with
      | same => exact herr _ s' hleft
  · obtain ⟨⟨e, rfl⟩, rfl⟩ := ha.refused hshort
    exact herr _ s' (.refl s' key)

theorem wp_del {key : Text} {post : Except StoreError Int64 → Server → Prop}
    (hshort : (Command.del key).Short) (h : ∀ n s', s.Left key none s' → post (.ok n) s') :
    (del key).wp Server.Answers post s := by
  intro reply s' ha
  obtain ⟨hreply, hleft⟩ := ha.left hshort
  cases hreply with
  | same => exact h _ s' hleft

theorem wp_sadd {key member : Text} {post : Except StoreError PUnit → Server → Prop}
    (hshort : (Command.sadd key member).Short) (hset : s.IsSet key)
    (h : ∀ ms s', (∀ x, x ∈ ms.items ↔ x = member ∨ x ∈ s.lists key) →
      s.Left key (some ⟨.set ms, (s.entry key).bind Entry.expires⟩) s' → post (.ok ⟨⟩) s') :
    (sadd key member).wp Server.Answers post s := by
  intro reply s' ha
  obtain ⟨hreply, hleft⟩ := ha.left hshort
  simp only [Command.act, Command.key] at hreply hleft
  unfold Server.lists at h
  split at hreply
  next he =>
    rw [he] at hleft h
    cases hreply with
    | same => exact h _ s' (fun x => Members.mem_insert) hleft
  next bytes expires he =>
    obtain ⟨ms, hms⟩ := hset _ he
    simp at hms
  next ms expires he =>
    rw [he] at hleft h
    cases hreply with
    | same => exact h _ s' (fun x => Members.mem_insert) hleft

theorem wp_srem {key member : Text} {post : Except StoreError PUnit → Server → Prop}
    (hshort : (Command.srem key member).Short) (hset : s.IsSet key)
    (h : ∀ entry s', (∀ x, x ∈ membersOf entry ↔ x ∈ s.lists key ∧ x ≠ member) →
      (∀ e, entry = some e → ∃ ms, e = ⟨.set ms, (s.entry key).bind Entry.expires⟩) →
      s.Left key entry s' → post (.ok ⟨⟩) s') :
    (srem key member).wp Server.Answers post s := by
  intro reply s' ha
  obtain ⟨hreply, hleft⟩ := ha.left hshort
  simp only [Command.act, Command.key] at hreply hleft
  unfold Server.lists at h
  split at hreply
  next he =>
    rw [he] at hleft h
    cases hreply with
    | same => exact h none s' (fun x => by simp [membersOf]) (fun e he => by simp at he) hleft
  next bytes expires he =>
    obtain ⟨ms, hms⟩ := hset _ he
    simp at hms
  next ms expires he =>
    rw [he] at hleft h
    cases hreply with
    | same =>
      refine h _ s' (fun x => ?_) (fun e hsome => ?_) hleft
      · rw [membersOf_erased]
        exact Members.mem_erase
      · dsimp only at hsome
        split at hsome
        next => simp at hsome
        next => exact ⟨_, (Option.some.inj hsome).symm⟩

theorem wp_expire {key : Text} {ttlSecs : UInt64} {t : Nat}
    {post : Except StoreError PUnit → Server → Prop}
    (hshort : (Command.expire key ttlSecs).Short) (ht : expiry s.now ttlSecs = some t)
    (hzero : ttlSecs ≠ 0)
    (h : ∀ s', s.Left key ((s.entry key).map fun e => { e with expires := some t }) s' →
      post (.ok ⟨⟩) s') :
    (expire key ttlSecs).wp Server.Answers post s := by
  intro reply s' ha
  obtain ⟨hreply, hleft⟩ := ha.left hshort
  cases he : s.entry key with
  | none =>
    simp only [Command.act, Command.key, ht, he] at hreply hleft h
    cases hreply with
    | same => exact h s' hleft
  | some e =>
    simp only [Command.act, Command.key, ht, he, if_neg hzero] at hreply hleft h
    cases hreply with
    | same => exact h s' hleft

theorem filterMap_listed {sids : List Text} {items : List Value}
    (h : (sids.map fun m => Value.bulk (encodeUtf8 m)).Perm items) :
    (items.filterMap listed).Perm sids := by
  refine (h.symm.filterMap listed).trans ?_
  rw [List.filterMap_map]
  have hsome : (listed ∘ fun m => Value.bulk (encodeUtf8 m)) = some := by
    funext m
    exact decodeUtf8_encodeUtf8 m
  rw [hsome, List.filterMap_some]

theorem wp_smembers {key : Text} {post : Except StoreError (List Text) → Server → Prop}
    (hok : ∀ sids s', (Command.smembers key).Short → s.IsSet key → sids.Perm (s.lists key) →
      s.Left key (s.entry key) s' → post (.ok sids) s')
    (herr : ∀ e s', ¬((Command.smembers key).Short ∧ s.IsSet key) →
      s.Left key (s.entry key) s' → post (.error e) s') :
    (smembers key).wp Server.Answers post s := by
  intro reply s' ha
  by_cases hshort : (Command.smembers key).Short
  · obtain ⟨hreply, hleft⟩ := ha.left hshort
    simp only [Command.act, Command.key] at hreply hleft
    split at hreply
    next he =>
      have hset : s.IsSet key := fun e h => by simp [he] at h
      have hlists : s.lists key = [] := congrArg membersOf he
      cases hreply with
      | same => exact hok [] s' hshort hset (by rw [hlists]) (by rwa [he] at hleft ⊢)
      | array hperm =>
        cases hperm.nil_eq
        exact hok [] s' hshort hset (by rw [hlists]) (by rwa [he] at hleft ⊢)
    next bytes expires he =>
      have hset : ¬s.IsSet key := by
        intro hset
        obtain ⟨ms, hms⟩ := hset _ he
        simp at hms
      cases hreply with
      | same => exact herr _ s' (fun h => hset h.2) (by rwa [he] at hleft ⊢)
    next ms expires he =>
      have hset : s.IsSet key := fun e h => ⟨ms, by rw [← Option.some.inj (he.symm.trans h)]⟩
      have hlists : s.lists key = ms.items := congrArg membersOf he
      have hanswer {items : List Value}
          (hperm : (ms.items.map fun m => Value.bulk (encodeUtf8 m)).Perm items) :
          post (.ok (items.filterMap listed)) s' := by
        refine hok _ s' hshort hset ?_ (by rwa [he] at hleft ⊢)
        rw [hlists]
        exact filterMap_listed hperm
      cases hreply with
      | same => exact hanswer (List.Perm.refl _)
      | array hperm => exact hanswer hperm
  · obtain ⟨⟨e, rfl⟩, rfl⟩ := ha.refused hshort
    exact herr _ s' (fun h => hshort h.1) (.refl s' key)

theorem wp_scard {key : Text} {post : Except StoreError Int64 → Server → Prop}
    (hshort : (Command.scard key).Short) (hset : s.IsSet key)
    (h : ∀ s', s.Left key (s.entry key) s' → post (.ok (Int64.ofNat (s.lists key).length)) s') :
    (scard key).wp Server.Answers post s := by
  intro reply s' ha
  obtain ⟨hreply, hleft⟩ := ha.left hshort
  simp only [Command.act, Command.key] at hreply hleft
  unfold Server.lists at h
  split at hreply
  next he =>
    rw [he] at h
    cases hreply with
    | same => exact h s' (by rwa [he] at hleft)
  next bytes expires he =>
    obtain ⟨ms, hms⟩ := hset _ he
    simp at hms
  next ms expires he =>
    rw [he] at h
    cases hreply with
    | same => exact h s' (by rwa [he] at hleft)

end Connection

end Kernway.Redis
