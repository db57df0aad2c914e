import Kernway.RedisSessions
import Kernway.Runs
import Mathlib.Data.Set.Card

namespace Kernway.Redis

/-- A write of the store, or time going by. -/
inductive StoreEvent
  | write (op : SessionOp)
  | pass (millis : Nat)

/-- The store's writes one after the other, on a server that starts with no keys. -/
def RedisSessionStore.runs (store : RedisSessionStore) : System Server StoreEvent where
  start s := ∀ key, s.keys key = none
  step s event s' :=
    match event with
    | .write op => ∃ result, (store.write op).Runs Server.Answers s result s'
    | .pass millis => s' = s.pass millis

/-- Every live session is in the index of its user and in that of all sessions, and the removal of
its user ends it. -/
structure Server.Revocable (s : Server) : Prop where
  listed : ∀ sid r, s.record sid = some r →
    sid ∈ s.lists (userKey r.user) ∧ sid ∈ s.lists indexKey
  ended : ∀ user result s', (RedisSessionStore.removeUser user).Runs Server.Answers s result s' →
    ∀ sid r, s'.record sid = some r → r.user ≠ user

/-- And the count is that of the live sessions, where the reply's `i64` can hold it. -/
structure Server.IndexSound (s : Server) : Prop extends s.Revocable where
  counted : {sid | s.record sid ≠ none}.ncard < 2 ^ 63 → ∀ result s',
    RedisSessionStore.len.Runs Server.Answers s result s' →
      result = .ok {sid | s.record sid ≠ none}.ncard

/-- No session is inserted under the id whose key is the index's, and none outlasts the index of
its user. -/
def UserIndexKept (s : Server) : StoreEvent → Prop
  | .write (.insert sid _) => sid ≠ indexSid
  | .write _ => True
  | .pass millis => ∀ sid r, (s.pass millis).record sid = some r →
    (s.pass millis).entry (userKey r.user) ≠ none

/-- And none expires. -/
def IndexKept (s : Server) (event : StoreEvent) : Prop :=
  UserIndexKept s event ∧ ∀ millis, event = .pass millis → ∀ sid r, s.record sid = some r →
    (s.pass millis).entry (sessKey sid) ≠ none

/-- What the store puts at a key. -/
structure Entry.Fits (key : Text) (e : Entry) : Prop where
  session : ∀ sid, key = sessKey sid → sid ≠ indexSid →
    ∃ r, e.stored = .string (encodeRecord r) ∧ (encodeRecord r).length ≤ maxBulk
  user : ∀ user, key = userKey user → ∃ ms, e.stored = .set ms
  index : key = indexKey → ∃ ms, e = ⟨.set ms, none⟩
  member : ∀ m ∈ membersOf (some e), m ≠ indexSid ∧ (encodeUtf8 (sessKey m)).length ≤ maxBulk

/-- The indexes of a store that is amid a write: all live sessions but the pending ones are listed,
and only the stale ones are listed without one. -/
structure Server.Indexed (pending stale : Set Text) (s : Server) : Prop where
  fits : ∀ key e, s.entry key = some e → e.Fits key
  listed : ∀ sid r, s.record sid = some r → sid ∉ pending →
    sid ∈ s.lists (userKey r.user) ∧ sid ∈ s.lists indexKey
  counted : ∀ sid ∈ s.lists indexKey, sid ∉ stale → s.record sid ≠ none

namespace Server

variable {s s' : Server} {pending stale : Set Text} {sid : Text}

namespace Indexed

theorem same {key : Text} (h : s.Indexed pending stale) (hl : s.Left key (s.entry key) s') :
    s'.Indexed pending stale := by
  have hlists (k : Text) : s'.lists k = s.lists k := congrArg membersOf (hl.entry_same k)
  have hrecord := hl.record_same
  refine ⟨fun key e he => h.fits key e (by rwa [hl.entry_same] at he), ?_, ?_⟩
  · intro sid r hr
    rw [hrecord] at hr
    rw [hlists, hlists]
    exact h.listed sid r hr
  · intro sid hs
    rw [hlists] at hs
    rw [hrecord]
    exact h.counted sid hs

/-- A change at one key keeps what fits the others. -/
theorem fits_left {key : Text} {entry : Option Entry} (h : s.Indexed pending stale)
    (hl : s.Left key entry s') (hfits : ∀ e, entry = some e → e.Fits key) :
    ∀ k e, s'.entry k = some e → e.Fits k := by
  intro k e he
  rw [hl.2] at he
  split at he
  next hk =>
    rw [hk]
    exact hfits e he
  next => exact h.fits k e he

theorem record_indexSid (h : s.Indexed pending stale) : s.record indexSid = none := by
  unfold Server.record
  rw [← indexKey_eq]
  cases he : s.entry indexKey with
  | none => rfl
  | some e =>
    obtain ⟨ms, rfl⟩ := (h.fits indexKey e he).index rfl
    rfl

theorem entry_of_record {r : SessionRecord} (h : s.Indexed pending stale)
    (hr : s.record sid = some r) : sid ≠ indexSid ∧ (encodeRecord r).length ≤ maxBulk := by
  have hsid : sid ≠ indexSid := by
    rintro rfl
    rw [h.record_indexSid] at hr
    simp at hr
  refine ⟨hsid, ?_⟩
  unfold Server.record at hr
  cases he : s.entry (sessKey sid) with
  | none => simp [he, recordIn] at hr
  | some e =>
    obtain ⟨r', hstored, hlen⟩ := (h.fits _ e he).session sid rfl hsid
    obtain ⟨stored, expires⟩ := e
    cases hstored
    simp only [he, recordIn, decodeRecord_encodeRecord hlen, Option.some.injEq] at hr
    rwa [← hr]

theorem isSet_user (h : s.Indexed pending stale) (user : Text) : s.IsSet (userKey user) :=
  fun e he => (h.fits _ e he).user user rfl

theorem isSet_index (h : s.Indexed pending stale) : s.IsSet indexKey := by
  intro e he
  obtain ⟨ms, rfl⟩ := (h.fits _ e he).index rfl
  exact ⟨ms, rfl⟩

theorem delSession (h : s.Indexed pending stale) (hsid : sid ≠ indexSid)
    (hl : s.Left (sessKey sid) none s') :
    s'.Indexed pending (insert sid stale) ∧
      ∀ x, s'.record x = if x = sid then none else s.record x := by
  have hlists {key : Text} (hkey : key ≠ sessKey sid) : s'.lists key = s.lists key := by
    rw [hl.lists, if_neg hkey]
  have hindex : indexKey ≠ sessKey sid := by
    rw [indexKey_eq]
    exact fun h => hsid (sessKey_inj.mp h).symm
  have hrecord (x : Text) : s'.record x = if x = sid then none else s.record x := by
    rw [hl.record]
    simp only [sessKey_inj, recordIn]
  refine ⟨⟨h.fits_left hl fun e he => by simp at he, ?_, ?_⟩, hrecord⟩
  · intro x r hr hx
    rw [hrecord] at hr
    split at hr
    next => simp at hr
    next =>
      rw [hlists hindex, hlists (userKey_ne_sessKey _ _)]
      exact h.listed x r hr hx
  · intro x hx hstale
    rw [hlists hindex] at hx
    obtain ⟨hne, hstale⟩ := not_or.mp hstale
    rw [hrecord, if_neg hne]
    exact h.counted x hx hstale

theorem setSession {r : SessionRecord} {expires : Option Nat} (h : s.Indexed pending stale)
    (hsid : sid ≠ indexSid) (hlen : (encodeRecord r).length ≤ maxBulk)
    (hl : s.Left (sessKey sid) (some ⟨.string (encodeRecord r), expires⟩) s') :
    s'.Indexed (insert sid pending) stale ∧ s'.record sid = some r ∧
      ∀ key, key ≠ sessKey sid → s'.lists key = s.lists key := by
  have hlists (key : Text) (hkey : key ≠ sessKey sid) : s'.lists key = s.lists key := by
    rw [hl.lists, if_neg hkey]
  have hindex : indexKey ≠ sessKey sid := by
    rw [indexKey_eq]
    exact fun h => hsid (sessKey_inj.mp h).symm
  have hrecord (x : Text) : s'.record x = if x = sid then some r else s.record x := by
    rw [hl.record]
    simp only [sessKey_inj, recordIn, decodeRecord_encodeRecord hlen]
  refine ⟨⟨h.fits_left hl ?_, ?_, ?_⟩, by rw [hrecord, if_pos rfl], hlists⟩
  · intro e he
    cases Option.some.inj he
    refine ⟨fun _ _ _ => ⟨r, rfl, hlen⟩, fun user hkey => ?_, fun hkey => ?_, fun m hm => ?_⟩
    · exact absurd hkey.symm (userKey_ne_sessKey user sid)
    · exact absurd hkey.symm hindex
    · simp [membersOf] at hm
  · intro x r' hr hx
    obtain ⟨hne, hx⟩ := not_or.mp hx
    rw [hrecord, if_neg hne] at hr
    rw [hlists _ hindex, hlists _ (userKey_ne_sessKey _ _)]
    exact h.listed x r' hr hx
  · intro x hx hstale
    rw [hlists _ hindex] at hx
    rw [hrecord]
    split
    next => simp
    next => exact h.counted x hx hstale

/-- A change at the key of a set leaves the sessions as they are. -/
theorem record_set {key : Text} {entry : Option Entry} (h : s.Indexed pending stale)
    (hl : s.Left key entry s') (hkey : ∀ x, x ≠ indexSid → sessKey x ≠ key)
    (hset : ∀ e, entry = some e → ∃ ms, e.stored = .set ms) (x : Text) :
    s'.record x = s.record x := by
  rw [hl.record]
  split
  next hx =>
    have hindex : x = indexSid := by_contra fun hne => hkey x hne hx
    rw [hindex, h.record_indexSid]
    cases entry with
    | none => rfl
    | some e =>
      obtain ⟨stored, expires⟩ := e
      obtain ⟨ms, hms⟩ := hset _ rfl
      cases hms
      rfl
  next => rfl

/-- The index of a user changed, but for the sessions that live. -/
theorem userSet {user : Text} {entry : Option Entry} (h : s.Indexed pending stale)
    (hl : s.Left (userKey user) entry s')
    (hset : ∀ e, entry = some e → ∃ ms, e.stored = .set ms)
    (hmem : ∀ m ∈ membersOf entry, m ≠ indexSid ∧ (encodeUtf8 (sessKey m)).length ≤ maxBulk)
    (hkept : ∀ x r, s.record x = some r → r.user = user → x ∉ pending → x ∈ membersOf entry) :
    s'.Indexed pending stale := by
  have hrecord := h.record_set hl (fun x _ => sessKey_ne_userKey) hset
  have hindex : s'.lists indexKey = s.lists indexKey := by
    rw [hl.lists, if_neg (userKey_ne_indexKey user).symm]
  refine ⟨h.fits_left hl ?_, ?_, ?_⟩
  · intro e he
    refine ⟨fun x hkey _ => ?_, fun _ _ => hset e he, fun hkey => ?_, fun m hm => ?_⟩
    · exact absurd hkey (userKey_ne_sessKey user x)
    · exact absurd hkey (userKey_ne_indexKey user)
    · exact hmem m (by rwa [he])
  · intro x r hr hx
    rw [hrecord] at hr
    obtain ⟨huser, hall⟩ := h.listed x r hr hx
    rw [hindex, hl.lists]
    refine ⟨?_, hall⟩
    split
    next heq => exact hkept x r hr (userKey_inj.mp heq) hx
    next => exact huser
  · intro x hx hstale
    rw [hindex] at hx
    rw [hrecord]
    exact h.counted x hx hstale

/-- The index of all sessions changed, but for the sessions that live. -/
theorem indexSet {entry : Option Entry} {pending' stale' : Set Text} (h : s.Indexed pending stale)
    (hl : s.Left indexKey entry s') (hset : ∀ e, entry = some e → ∃ ms, e = ⟨.set ms, none⟩)
    (hmem : ∀ m ∈ membersOf entry, m ≠ indexSid ∧ (encodeUtf8 (sessKey m)).length ≤ maxBulk)
    (hkept : ∀ x r, s.record x = some r → x ∉ pending' →
      x ∈ s.lists (userKey r.user) ∧ x ∈ membersOf entry)
    (hlive : ∀ x ∈ membersOf entry, x ∉ stale' → s.record x ≠ none) :
    s'.Indexed pending' stale' := by
  have hstored : ∀ e, entry = some e → ∃ ms, e.stored = .set ms := by
    intro e he
    obtain ⟨ms, rfl⟩ := hset e he
    exact ⟨ms, rfl⟩
  have hrecord := h.record_set hl (fun x hx => sessKey_ne_indexKey hx) hstored
  have hindex : s'.lists indexKey = membersOf entry := by rw [hl.lists, if_pos rfl]
  refine ⟨h.fits_left hl ?_, ?_, ?_⟩
  · intro e he
    refine ⟨fun x hkey hx => ?_, fun user hkey => ?_, fun _ => hset e he, fun m hm => ?_⟩
    · exact absurd hkey.symm (sessKey_ne_indexKey hx)
    · exact absurd hkey.symm (userKey_ne_indexKey user)
    · exact hmem m (by rwa [he])
  · intro x r hr hx
    rw [hrecord] at hr
    rw [hindex, hl.lists, if_neg (userKey_ne_indexKey r.user)]
    exact hkept x r hr hx
  · intro x hx hstale
    rw [hindex] at hx
    rw [hrecord]
    exact hlive x hx hstale

theorem member_lists {key m : Text} (h : s.Indexed pending stale) (hm : m ∈ s.lists key) :
    m ≠ indexSid ∧ (encodeUtf8 (sessKey m)).length ≤ maxBulk := by
  unfold Server.lists at hm
  cases he : s.entry key with
  | none => simp [he, membersOf] at hm
  | some e => exact (h.fits key e he).member m (by rwa [← he])

theorem mono {stale' : Set Text} (h : s.Indexed pending stale) (hle : stale ⊆ stale') :
    s.Indexed pending stale' :=
  ⟨h.fits, h.listed, fun sid hs hx => h.counted sid hs fun hstale => hx (hle hstale)⟩

/-- A pending session that both its indexes list is pending no more. -/
theorem settle {r : SessionRecord} (h : s.Indexed (insert sid pending) stale)
    (hr : s.record sid = some r) (huser : sid ∈ s.lists (userKey r.user))
    (hindex : sid ∈ s.lists indexKey) : s.Indexed pending stale := by
  refine ⟨h.fits, fun x r' hr' hx => ?_, h.counted⟩
  by_cases hne : x = sid
  · subst hne
    obtain rfl := Option.some.inj (hr.symm.trans hr')
    exact ⟨huser, hindex⟩
  · exact h.listed x r' hr' (not_or.mpr ⟨hne, hx⟩)

theorem index_expires (h : s.Indexed pending stale) :
    (s.entry indexKey).bind Entry.expires = none := by
  cases he : s.entry indexKey with
  | none => rfl
  | some e =>
    obtain ⟨ms, rfl⟩ := (h.fits _ e he).index rfl
    rfl

/-- The index of a user without a session that lives no more. -/
theorem eraseUser {user : Text} {entry : Option Entry} {expires : Option Nat}
    (h : s.Indexed pending stale) (hrecord : s.record sid = none)
    (hl : s.Left (userKey user) entry s')
    (hmem : ∀ x, x ∈ membersOf entry ↔ x ∈ s.lists (userKey user) ∧ x ≠ sid)
    (hset : ∀ e, entry = some e → ∃ ms, e = ⟨.set ms, expires⟩) :
    s'.Indexed pending stale ∧ s'.record sid = none := by
  have hstored : ∀ e, entry = some e → ∃ ms, e.stored = .set ms := by
    intro e he
    obtain ⟨ms, rfl⟩ := hset e he
    exact ⟨ms, rfl⟩
  refine ⟨h.userSet hl hstored (fun m hm => h.member_lists ((hmem m).mp hm).1) ?_, ?_⟩
  · intro x r hr huser hx
    refine (hmem x).mpr ⟨?_, ?_⟩
    · rw [← huser]
      exact (h.listed x r hr hx).1
    · rintro rfl
      rw [hrecord] at hr
      simp at hr
  · rwa [h.record_set hl (fun x _ => sessKey_ne_userKey) hstored]

/-- The index of all sessions without one that lives no more, stale until then. -/
theorem eraseIndex {entry : Option Entry} (h : s.Indexed pending (insert sid stale))
    (hrecord : s.record sid = none) (hl : s.Left indexKey entry s')
    (hmem : ∀ x, x ∈ membersOf entry ↔ x ∈ s.lists indexKey ∧ x ≠ sid)
    (hset : ∀ e, entry = some e → ∃ ms, e = ⟨.set ms, (s.entry indexKey).bind Entry.expires⟩) :
    s'.Indexed pending stale ∧ ∀ x, s'.record x = s.record x := by
  rw [h.index_expires] at hset
  have hstored : ∀ e, entry = some e → ∃ ms, e.stored = .set ms := by
    intro e he
    obtain ⟨ms, rfl⟩ := hset e he
    exact ⟨ms, rfl⟩
  refine ⟨h.indexSet hl hset (fun m hm => h.member_lists ((hmem m).mp hm).1) ?_ ?_,
    h.record_set hl (fun x hx => sessKey_ne_indexKey hx) hstored⟩
  · intro x r hr hx
    obtain ⟨huser, hindex⟩ := h.listed x r hr hx
    refine ⟨huser, (hmem x).mpr ⟨hindex, ?_⟩⟩
    rintro rfl
    rw [hrecord] at hr
    simp at hr
  · intro x hx hstale
    obtain ⟨hx, hne⟩ := (hmem x).mp hx
    exact h.counted x hx (not_or.mpr ⟨hne, hstale⟩)

/-- A new time to expire changes no index. -/
theorem expireUser {user : Text} {t : Nat} (h : s.Indexed pending stale)
    (hl : s.Left (userKey user) ((s.entry (userKey user)).map fun e => { e with expires := some t })
      s') :
    s'.Indexed pending stale ∧ (∀ x, s'.record x = s.record x) ∧
      ∀ key, s'.lists key = s.lists key := by
  have hset : ∀ e, ((s.entry (userKey user)).map fun e => { e with expires := some t }) = some e →
      ∃ ms, e.stored = .set ms := by
    intro e he
    obtain ⟨e', he', rfl⟩ := Option.map_eq_some_iff.mp he
    exact h.isSet_user user e' he'
  have hmembers := membersOf_expires (s.entry (userKey user)) (some t)
  refine ⟨h.userSet hl hset (fun m hm => ?_) (fun x r hr huser hx => ?_),
    h.record_set hl (fun x _ => sessKey_ne_userKey) hset, fun key => ?_⟩
  · rw [hmembers] at hm
    exact h.member_lists hm
  · rw [hmembers, ← huser]
    exact (h.listed x r hr hx).1
  · rw [hl.lists, hmembers]
    split
    next hkey => rw [hkey]; rfl
    next => rfl

end Indexed

end Server

section Writes

open Connection Command

variable {s : Server} {stale : Set Text}

theorem wp_insert (store : RedisSessionStore) {sid : Text} (record : SessionRecord)
    (h : s.Indexed ∅ stale) (hsid : sid ≠ indexSid) :
    (store.insert sid record).wp Server.Answers (fun _ s' => s'.Indexed ∅ stale) s := by
  refine Script.wp_bind (wp_setEx ?_ fun e s₁ hl => h.same hl)
  intro t s₁ hshort ht hzero hl
  have hkey : (encodeUtf8 (sessKey sid)).length ≤ maxBulk := hshort _ (by simp [args])
  have hvalue : (encodeRecord record).length ≤ maxBulk := hshort _ (by simp [args])
  have hsidShort : (encodeUtf8 sid).length ≤ maxBulk := by
    rw [length_sessKey] at hkey
    omega
  have huserShort := length_userKey_le hvalue
  obtain ⟨h₁, hrecord₁, -⟩ := h.setSession hsid hvalue hl
  refine Script.wp_bind (wp_sadd (short_sadd huserShort hsidShort) (h₁.isSet_user _) ?_)
  intro ms s₂ hms hl₂
  have h₂ : s₂.Indexed (insert sid ∅) stale := by
    refine h₁.userSet hl₂ (fun e he => ⟨ms, by cases he; rfl⟩) (fun m hm => ?_) ?_
    · rcases (hms m).mp hm with rfl | hm
      · exact ⟨hsid, hkey⟩
      · exact h₁.member_lists hm
    · intro x r hr huser hx
      refine (hms x).mpr (.inr ?_)
      rw [← huser]
      exact (h₁.listed x r hr hx).1
  have hrecord₂ := h₁.record_set hl₂ (fun x _ => sessKey_ne_userKey)
    (fun e he => ⟨ms, by cases he; rfl⟩)
  have hlists₂ : s₂.lists (userKey record.user) = ms.items := by rw [hl₂.lists, if_pos rfl]; rfl
  have hexpire : (Command.expire (userKey record.user) store.ttlSecs).Short := by
    exact short_expire huserShort (hshort _ (by simp [args]))
  refine Script.wp_bind (wp_expire hexpire (by rwa [hl₂.1, hl.1]) hzero ?_)
  intro s₃ hl₃
  obtain ⟨h₃, hrecord₃, hlists₃⟩ := h₂.expireUser hl₃
  refine wp_sadd (short_sadd length_indexKey hsidShort) h₃.isSet_index ?_
  intro ms' s₄ hms' hl₄
  have hrecord₃ : s₃.record sid = some record := by rw [hrecord₃, hrecord₂, hrecord₁]
  rw [h₃.index_expires] at hl₄
  have h₄ : s₄.Indexed (insert sid ∅) stale := by
    refine h₃.indexSet hl₄ (fun e he => ⟨ms', (Option.some.inj he).symm⟩) (fun m hm => ?_)
      (fun x r hr hx => ?_) fun x hx hstale => ?_
    · rcases (hms' m).mp hm with rfl | hm
      · exact ⟨hsid, hkey⟩
      · exact h₃.member_lists hm
    · obtain ⟨huser, hindex⟩ := h₃.listed x r hr hx
      exact ⟨huser, (hms' x).mpr (.inr hindex)⟩
    · rcases (hms' x).mp hx with rfl | hx
      · rw [hrecord₃]
        simp
      · exact h₃.counted x hx hstale
  refine h₄.settle (r := record) ?_ ?_ ?_
  · rwa [h₃.record_set hl₄ (fun x hx => sessKey_ne_indexKey hx)
      fun e he => ⟨ms', by cases he; rfl⟩]
  · rw [hl₄.lists, if_neg (userKey_ne_indexKey _), hlists₃, hlists₂]
    exact (hms sid).mpr (.inl rfl)
  · rw [hl₄.lists, if_pos rfl]
    exact (hms' sid).mpr (.inl rfl)

theorem wp_touch (store : RedisSessionStore) {sid : Text} (time : UInt64)
    (h : s.Indexed ∅ stale) :
    (store.touch sid time).wp Server.Answers (fun _ s' => s'.Indexed ∅ stale) s := by
  refine Script.wp_bind (wp_get (fun o s₁ _ hl hget => ?_) fun e s₁ _ hl => h.same hl)
  have h₁ := h.same hl
  have hdecode := decode_of_get hget
  show (RedisSessionStore.touchRead store sid time (o.bind decodeRecord)).wp _ _ _
  cases hr : o.bind decodeRecord with
  | none => exact h₁
  | some record =>
    obtain ⟨hsid, -⟩ := h.entry_of_record (hdecode.symm.trans hr)
    refine wp_setEx (fun t s₂ hshort _ _ hl₂ => ?_) fun e s₂ hl₂ => h₁.same hl₂
    have hvalue : (encodeRecord { record with lastSeen := time }).length ≤ maxBulk :=
      hshort _ (by simp [args])
    obtain ⟨h₂, hrecord₂, hlists₂⟩ := h₁.setSession hsid hvalue hl₂
    have hrecord₁ : s₁.record sid = some record := by
      rw [← hr, hdecode, hl.record_same]
    obtain ⟨huser, hindex⟩ := h₁.listed sid record hrecord₁ (Set.notMem_empty sid)
    refine h₂.settle hrecord₂ ?_ ?_
    · rwa [hlists₂ _ (userKey_ne_sessKey _ _)]
    · rwa [hlists₂ _ (sessKey_ne_indexKey hsid).symm]


theorem wp_remove {sid : Text} (h : s.Indexed ∅ stale) :
    (RedisSessionStore.remove sid).wp Server.Answers (fun _ s' => s'.Indexed ∅ stale) s := by
  refine Script.wp_bind (wp_get (fun o s₁ hshort hl hget => ?_) fun e s₁ _ hl => h.same hl)
  have h₁ := h.same hl
  have hkey : (encodeUtf8 (sessKey sid)).length ≤ maxBulk := hshort _ (by simp [args])
  have hsidShort : (encodeUtf8 sid).length ≤ maxBulk := by
    rw [length_sessKey] at hkey
    omega
  have hdecode := decode_of_get hget
  refine Script.wp_bind (wp_del (short_del hkey) fun n s₂ hl₂ => ?_)
  have h₂ : s₂.Indexed ∅ (insert sid stale) ∧ s₂.record sid = none := by
    by_cases hsid : sid = indexSid
    · subst hsid
      have hnone : s.entry (sessKey indexSid) = none := by
        rw [← indexKey_eq] at hget ⊢
        cases he : s.entry indexKey with
        | none => rfl
        | some e =>
          obtain ⟨ms, rfl⟩ := (h.fits _ e he).index rfl
          cases o <;> simp [he] at hget
      have hsame : s₂.Indexed ∅ stale := by
        refine h₁.same (?_ : s₁.Left (sessKey indexSid) _ s₂)
        rwa [hl.2, if_pos rfl, hnone]
      exact ⟨hsame.mono (Set.subset_insert _ _), hsame.record_indexSid⟩
    · obtain ⟨h₂, hrecord₂⟩ := h₁.delSession hsid hl₂
      exact ⟨h₂, by rw [hrecord₂, if_pos rfl]⟩
  obtain ⟨h₂, hrecord₂⟩ := h₂
  have hindex {s₃ : Server} (h₃ : s₃.Indexed ∅ (insert sid stale)) (hrecord₃ : s₃.record sid = none) :
      (Connection.srem indexKey sid).wp Server.Answers (fun _ s' => s'.Indexed ∅ stale) s₃ :=
    wp_srem (short_srem length_indexKey hsidShort) h₃.isSet_index fun entry s₄ hmem hset hl₄ =>
      (h₃.eraseIndex hrecord₃ hl₄ hmem hset).1
  show (RedisSessionStore.removeRead sid ((o.bind decodeRecord).map SessionRecord.user)).wp _ _ _
  cases hr : o.bind decodeRecord with
  | none => exact hindex h₂ hrecord₂
  | some record =>
    obtain ⟨-, hvalue⟩ := h.entry_of_record (hdecode.symm.trans hr)
    have huserShort := length_userKey_le hvalue
    refine Script.wp_bind (wp_srem (short_srem huserShort hsidShort) (h₂.isSet_user _) ?_)
    intro entry s₃ hmem hset hl₃
    obtain ⟨h₃, hrecord₃⟩ := h₂.eraseUser hrecord₂ hl₃ hmem hset
    exact hindex h₃ hrecord₃

theorem wp_removeUser {user : Text} (h : s.Indexed ∅ stale) :
    (RedisSessionStore.removeUser user).wp Server.Answers (fun _ s' => s'.Indexed ∅ stale ∧
      ∀ sid r, s'.record sid = some r → r.user ≠ user) s := by
  refine Script.wp_bind (wp_smembers (fun sids s₁ hshort _ hsids hl => ?_) fun e s₁ hshort hl => ?_)
  · have h₁ := h.same hl
    have hmember : ∀ m ∈ sids, m ≠ indexSid ∧ (encodeUtf8 (sessKey m)).length ≤ maxBulk :=
      fun m hm => h.member_lists (hsids.mem_iff.mp hm)
    have hrest : ∀ x r, s₁.record x = some r → r.user = user → x ∈ sids := by
      intro x r hr huser
      rw [hsids.mem_iff, ← huser]
      rw [hl.record_same] at hr
      exact (h.listed x r hr (Set.notMem_empty x)).1
    refine Script.wp_bind (Script.wp_forM (fun rest s => s.Indexed ∅ stale ∧
      (∀ x r, s.record x = some r → r.user = user → x ∈ rest) ∧
      ∀ m ∈ rest, m ≠ indexSid ∧ (encodeUtf8 (sessKey m)).length ≤ maxBulk)
      (fun s₂ hinv => ?_) (fun sid rest s₂ hinv => ?_) ⟨h₁, hrest, hmember⟩)
    · obtain ⟨h₂, hrest₂, -⟩ := hinv
      have hnone : ∀ x r, s₂.record x = some r → r.user ≠ user := by
        intro x r hr huser
        exact absurd (hrest₂ x r hr huser) List.not_mem_nil
      have huserShort : (encodeUtf8 (userKey user)).length ≤ maxBulk := hshort _ (by simp [args])
      refine Script.wp_bind (wp_del (short_del huserShort) fun n s₃ hl₃ => ?_)
      have hset : ∀ e, (none : Option Entry) = some e → ∃ ms, e.stored = .set ms := by
        intro e he
        simp at he
      refine ⟨h₂.userSet hl₃ hset (fun m hm => by simp [membersOf] at hm) ?_, ?_⟩
      · intro x r hr huser
        exact absurd huser (hnone x r hr)
      · intro x r hr
        rw [h₂.record_set hl₃ (fun x _ => sessKey_ne_userKey) hset] at hr
        exact hnone x r hr
    · obtain ⟨h₂, hrest₂, hmember₂⟩ := hinv
      obtain ⟨⟨hsid, hkey⟩, hmember₂⟩ := List.forall_mem_cons.mp hmember₂
      have hsidShort : (encodeUtf8 sid).length ≤ maxBulk := by
        rw [length_sessKey] at hkey
        omega
      refine Script.wp_bind (wp_del (short_del hkey) fun n s₃ hl₃ => ?_)
      obtain ⟨h₃, hrecord₃⟩ := h₂.delSession hsid hl₃
      refine wp_srem (short_srem length_indexKey hsidShort) h₃.isSet_index ?_
      intro entry s₄ hmem hset hl₄
      obtain ⟨h₄, hrecord₄⟩ := h₃.eraseIndex (by rw [hrecord₃, if_pos rfl]) hl₄ hmem hset
      refine ⟨h₄, fun x r hr huser => ?_, hmember₂⟩
      rw [hrecord₄, hrecord₃] at hr
      split at hr
      next => simp at hr
      next hne => exact (List.mem_cons.mp (hrest₂ x r hr huser)).resolve_left hne
  · refine ⟨h.same hl, fun x r hr huser => ?_⟩
    -- a user with a session has a name that the listing of the index takes
    rw [hl.record_same] at hr
    have huserShort := length_userKey_le (h.entry_of_record hr).2
    rw [huser] at huserShort
    exact hshort ⟨short_smembers huserShort, h.isSet_user user⟩

theorem wp_write (store : RedisSessionStore) {op : SessionOp} (h : s.Indexed ∅ stale)
    (hkept : UserIndexKept s (.write op)) :
    (store.write op).wp Server.Answers (fun _ s' => s'.Indexed ∅ stale) s := by
  cases op with
  | insert sid record => exact wp_insert store record h hkept
  | touch sid time => exact wp_touch store time h
  | remove sid => exact wp_remove h
  | removeUser user => exact Script.wp_mono (wp_removeUser h) fun _ _ hs => hs.1

theorem wp_len (h : s.Indexed ∅ ∅) (hfew : {sid | s.record sid ≠ none}.ncard < 2 ^ 63) :
    RedisSessionStore.len.wp Server.Answers
      (fun result _ => result = .ok {sid | s.record sid ≠ none}.ncard) s := by
  have hlive : {sid | s.record sid ≠ none} = {sid | sid ∈ s.lists indexKey} := by
    apply Set.ext
    intro sid
    refine ⟨fun hs => ?_, fun hs => h.counted sid hs (Set.notMem_empty sid)⟩
    obtain ⟨r, hr⟩ := Option.ne_none_iff_exists'.mp hs
    exact (h.listed sid r hr (Set.notMem_empty sid)).2
  have hcard : {sid | s.record sid ≠ none}.ncard = (s.lists indexKey).length := by
    rw [hlive, ← List.toFinset_card_of_nodup (s.nodup_lists indexKey), ← Set.ncard_coe_finset]
    simp
  rw [hcard] at hfew ⊢
  refine Script.wp_bind (wp_scard (short_scard length_indexKey) h.isSet_index fun s₁ _ => ?_)
  exact congrArg Except.ok (RedisSessionStore.toNatClampNeg_max hfew)

end Writes

namespace Server

variable {s : Server} {stale : Set Text} {millis : Nat}

theorem Indexed.lists_pass (h : s.Indexed ∅ stale) :
    (s.pass millis).lists indexKey = s.lists indexKey := by
  refine congrArg membersOf ?_
  cases he : s.entry indexKey with
  | none =>
    by_contra hne
    obtain ⟨e, he'⟩ := Option.ne_none_iff_exists'.mp hne
    rw [entry_pass he'] at he
    simp at he
  | some e =>
    obtain ⟨ms, rfl⟩ := (h.fits _ e he).index rfl
    rw [entry_pass_of_lasting he, he]

theorem record_pass {sid : Text} {r : SessionRecord} (h : (s.pass millis).record sid = some r) :
    (s.pass millis).entry (sessKey sid) ≠ none ∧ s.record sid = some r := by
  have hne : (s.pass millis).entry (sessKey sid) ≠ none := by
    intro hnone
    unfold record at h
    rw [hnone] at h
    simp [recordIn] at h
  refine ⟨hne, ?_⟩
  rw [← h]
  exact congrArg recordIn (entry_pass_of_ne_none hne).symm

/-- Time going by keeps the indexes where no user's index is outlasted by a session, and the count
where no session that it counts ends. -/
theorem Indexed.pass (h : s.Indexed ∅ stale)
    (huser : ∀ sid r, (s.pass millis).record sid = some r →
      (s.pass millis).entry (userKey r.user) ≠ none)
    (hlast : ∀ sid r, sid ∉ stale → s.record sid = some r →
      (s.pass millis).entry (sessKey sid) ≠ none) : (s.pass millis).Indexed ∅ stale := by
  refine ⟨fun key e he => h.fits key e (entry_pass he), fun sid r hr hx => ?_, fun sid hs hx => ?_⟩
  · obtain ⟨hlists, hindex⟩ := h.listed sid r (record_pass hr).2 hx
    rw [h.lists_pass]
    refine ⟨?_, hindex⟩
    unfold lists
    rwa [entry_pass_of_ne_none (huser sid r hr)]
  · rw [h.lists_pass] at hs
    have hrecord := h.counted sid hs hx
    obtain ⟨r, hr⟩ := Option.ne_none_iff_exists'.mp hrecord
    unfold record
    rwa [entry_pass_of_ne_none (hlast sid r hx hr)]

theorem Indexed.revocable (h : s.Indexed ∅ stale) : s.Revocable where
  listed sid r hr := h.listed sid r hr (Set.notMem_empty sid)
  ended _ result s' hruns := (Script.wp_iff.mp (wp_removeUser h) result s' hruns).2

theorem Indexed.indexSound (h : s.Indexed ∅ ∅) : s.IndexSound where
  toRevocable := h.revocable
  counted hfew result s' hruns := Script.wp_iff.mp (wp_len h hfew) result s' hruns

theorem indexed_start (h : ∀ key, s.keys key = none) : s.Indexed ∅ stale := by
  have hentry (key : Text) : s.entry key = none := by rw [Server.entry, h key]; rfl
  refine ⟨fun key e he => ?_, fun sid r hr => ?_, fun sid hsid => ?_⟩
  · rw [hentry] at he
    simp at he
  · rw [Server.record, hentry] at hr
    simp [recordIn] at hr
  · rw [Server.lists, hentry] at hsid
    simp [membersOf] at hsid

end Server

namespace RedisSessionStore

/-- In every run in which no session outlasts the index of its user, a user's removal ends every
session of theirs, though the count is over those that have expired too. -/
theorem reach_revocable (store : RedisSessionStore) {s : Server}
    (h : store.runs.Reach UserIndexKept s) : s.Revocable := by
  have hinv : s.Indexed ∅ Set.univ := by
    refine @System.Reach.invariant _ _ _ _ (Server.Indexed ∅ Set.univ)
      (fun s hs => Server.indexed_start hs) (fun s event s' hinv hkept hstep => ?_) s h
    cases event with
    | write op =>
      obtain ⟨result, hruns⟩ := hstep
      exact Script.wp_iff.mp (wp_write store hinv hkept) result s' hruns
    | pass millis =>
      obtain rfl := hstep
      exact hinv.pass hkept fun sid r hx _ => absurd (Set.mem_univ sid) hx
  exact hinv.revocable

theorem reach_indexSound (store : RedisSessionStore) {s : Server}
    (h : store.runs.Reach IndexKept s) : s.IndexSound := by
  have hinv : s.Indexed ∅ ∅ := by
    refine @System.Reach.invariant _ _ _ _ (Server.Indexed ∅ ∅)
      (fun s hs => Server.indexed_start hs) (fun s event s' hinv hkept hstep => ?_) s h
    cases event with
    | write op =>
      obtain ⟨result, hruns⟩ := hstep
      exact Script.wp_iff.mp (wp_write store hinv hkept.1) result s' hruns
    | pass millis =>
      obtain rfl := hstep
      exact hinv.pass hkept.1 fun sid r _ hr => hkept.2 millis rfl sid r hr
  exact hinv.indexSound

def alice : SessionRecord := ⟨"alice".toList, 0, 0, []⟩

theorem reach_indexSound_alice :
    (((⟨10⟩ : RedisSessionStore).insert ['a'] alice).run Server.exec ⟨0, fun _ => none⟩).2.IndexSound :=
  reach_indexSound ⟨10⟩ (.step (.start fun _ => rfl)
    (e := .write (.insert ['a'] alice))
    ⟨(by decide : (['a'] : Text) ≠ indexSid), fun _ h => by cases h⟩
    ⟨_, Script.runs_run Server.answers_exec _ _⟩)

/-- A session inserted for ten seconds, touched after nine, and five seconds more. -/
def afterTouch : Server :=
  let store : RedisSessionStore := ⟨10⟩
  let s := ((store.insert ['a'] alice).run Server.exec ⟨0, fun _ => none⟩).2
  (((store.touch ['a'] 9).run Server.exec (s.pass 9000)).2).pass 5000

theorem not_reach_indexSound :
    ¬∀ (store : RedisSessionStore) (s : Server), store.runs.Reachable s → s.IndexSound := by
  intro h
  let store : RedisSessionStore := ⟨10⟩
  let s₁ := ((store.insert ['a'] alice).run Server.exec ⟨0, fun _ => none⟩).2
  let s₂ := ((store.touch ['a'] 9).run Server.exec (s₁.pass 9000)).2
  have h₀ : store.runs.Reachable ⟨0, fun _ => none⟩ := .start fun _ => rfl
  have h₁ : store.runs.Reachable s₁ := .step (e := .write (.insert ['a'] alice)) h₀ trivial
    ⟨_, Script.runs_run Server.answers_exec _ _⟩
  have h₂ : store.runs.Reachable (s₁.pass 9000) := .step (e := .pass 9000) h₁ trivial rfl
  have h₃ : store.runs.Reachable s₂ := .step (e := .write (.touch ['a'] 9)) h₂ trivial
    ⟨_, Script.runs_run Server.answers_exec _ _⟩
  have h₄ : store.runs.Reachable afterTouch := .step (e := .pass 5000) h₃ trivial rfl
  have hlive : afterTouch.record ['a'] = some { alice with lastSeen := 9 } := by decide
  obtain ⟨huser, -⟩ := (h store afterTouch h₄).listed _ _ hlive
  exact absurd huser (by decide)

end RedisSessionStore

end Kernway.Redis
