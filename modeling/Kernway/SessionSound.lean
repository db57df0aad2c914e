import Kernway.SessionManager

namespace Kernway

/-- A write that ends the session `sid` of `user`. -/
def SessionOp.Ends (op : SessionOp) (sid user : Text) : Prop :=
  op = .remove sid ∨ op = .removeUser user

def SessionOp.insertedSid : SessionOp → Option Text
  | insert sid _ => some sid
  | _ => none

/-- By these writes the session was logged in and not ended since, and `record` is what is known of
it: its last use is the login or a later touch. -/
def LoggedIn (writes : List SessionOp) (sid : Text) (record : SessionRecord) : Prop :=
  ∃ pre login post, writes = pre ++ .insert sid login :: post ∧
    (∀ op ∈ post, ¬ op.Ends sid login.user) ∧
    record.user = login.user ∧ record.created = login.created ∧
    (record.lastSeen = login.lastSeen ∨ .touch sid record.lastSeen ∈ post)

/-- By these writes the session was logged in, and then logged out. -/
def LoggedOut (writes : List SessionOp) (sid : Text) : Prop :=
  ∃ pre login mid op post, writes = pre ++ .insert sid login :: (mid ++ op :: post) ∧
    op.Ends sid login.user

/-- No two logins drew the same session id. -/
def SidsDistinct (writes : List SessionOp) : Prop :=
  (writes.filterMap SessionOp.insertedSid).Nodup

theorem loggedIn_of_runOn {writes : List SessionOp} {sid : Text} {record : SessionRecord}
    (h : runOn writes sid none = some record) : LoggedIn writes sid record := by
  induction writes using List.reverseRecOn generalizing record with
  | nil => simp at h
  | append_singleton writes op ih =>
    rw [runOn_append, runOn_cons, runOn_nil] at h
    -- A write that leaves the session of an earlier login alone.
    have hkeep : ∀ {r}, runOn writes sid none = some r → r.user = record.user →
        r.created = record.created → (r.lastSeen = record.lastSeen ∨ op = .touch sid record.lastSeen) →
        ¬ op.Ends sid r.user → LoggedIn (writes ++ [op]) sid record := by
      intro r hr huser hcreated hseen hends
      obtain ⟨pre, login, post, rfl, hpost, hu, hc, hs⟩ := ih hr
      refine ⟨pre, login, post ++ [op], by simp, fun x hx => ?_, huser ▸ hu, hcreated ▸ hc, ?_⟩
      · rcases List.mem_append.mp hx with hx | hx
        · exact hpost x hx
        · rw [List.mem_singleton.mp hx, ← hu]
          exact hends
      · rcases hseen with heq | rfl
        · rw [← heq]
          exact hs.imp_right fun h => List.mem_append_left _ h
        · exact .inr (by simp)
    cases op with
    | insert sid' login =>
      by_cases hk : sid = sid'
      · subst hk
        obtain rfl : login = record := by simpa [SessionOp.on] using h
        exact ⟨writes, login, [], rfl, by simp, rfl, rfl, .inl rfl⟩
      · simp only [SessionOp.on, if_neg hk] at h
        exact hkeep h rfl rfl (.inl rfl) (by simp [SessionOp.Ends])
    | touch sid' time =>
      by_cases hk : sid = sid'
      · subst hk
        simp only [SessionOp.on, if_true] at h
        obtain ⟨r, hr, rfl⟩ := Option.map_eq_some_iff.mp h
        exact hkeep hr rfl rfl (.inr rfl) (by simp [SessionOp.Ends])
      · simp only [SessionOp.on, if_neg hk] at h
        exact hkeep h rfl rfl (.inl rfl) (by simp [SessionOp.Ends])
    | remove sid' =>
      by_cases hk : sid = sid'
      · simp [SessionOp.on, hk] at h
      · simp only [SessionOp.on, if_neg hk] at h
        exact hkeep h rfl rfl (.inl rfl) (by simp [SessionOp.Ends, Ne.symm hk])
    | removeUser user =>
      obtain ⟨hr, hne⟩ := Option.filter_eq_some_iff.mp h
      have hne' : record.user ≠ user := by simpa using hne
      exact hkeep hr rfl rfl (.inl rfl) (by simp [SessionOp.Ends, Ne.symm hne'])

theorem runOn_none {writes : List SessionOp} {sid : Text}
    (h : sid ∉ writes.filterMap SessionOp.insertedSid) : runOn writes sid none = none := by
  cases hr : runOn writes sid none with
  | none => rfl
  | some record =>
    obtain ⟨pre, login, post, rfl, _⟩ := loggedIn_of_runOn hr
    simp [SessionOp.insertedSid] at h

theorem SessionOp.on_user {op : SessionOp} {sid : Text} {r r' : SessionRecord}
    (hn : op.insertedSid ≠ some sid) (h : op.on sid (some r) = some r') : r'.user = r.user := by
  cases op with
  | insert sid' login =>
    have hk : sid ≠ sid' := by
      rintro rfl
      exact hn rfl
    simp only [SessionOp.on, if_neg hk, Option.some.injEq] at h
    rw [h]
  | touch sid' time =>
    simp only [SessionOp.on] at h
    split at h
    · cases Option.some.inj h
      rfl
    · cases Option.some.inj h
      rfl
  | remove sid' =>
    simp only [SessionOp.on] at h
    split at h
    · simp at h
    · cases Option.some.inj h
      rfl
  | removeUser user =>
    simp only [SessionOp.on] at h
    obtain ⟨hr, _⟩ := Option.filter_eq_some_iff.mp h
    cases Option.some.inj hr
    rfl

/-- Without another login a session keeps its user, if it stays. -/
theorem runOn_user {writes : List SessionOp} {sid : Text} {r r' : SessionRecord}
    (hn : sid ∉ writes.filterMap SessionOp.insertedSid) (h : runOn writes sid (some r) = some r') :
    r'.user = r.user := by
  induction writes generalizing r with
  | nil =>
    cases Option.some.inj h
    rfl
  | cons op writes ih =>
    rw [runOn_cons] at h
    have hop : op.insertedSid ≠ some sid := fun heq =>
      hn (List.mem_filterMap.mpr ⟨op, List.mem_cons_self .., heq⟩)
    have hrest : sid ∉ writes.filterMap SessionOp.insertedSid := fun hmem =>
      hn ((List.sublist_cons_self op writes).filterMap _ |>.subset hmem)
    cases hv : op.on sid (some r) with
    | none =>
      rw [hv, runOn_none hrest] at h
      simp at h
    | some v =>
      rw [hv] at h
      rw [ih hrest h, SessionOp.on_user hop hv]

/-- A session logged out is not in the registry, now or after any further writes. -/
theorem runOn_loggedOut {writes later : List SessionOp} {sid : Text} (hout : LoggedOut writes sid)
    (hd : SidsDistinct (writes ++ later)) : runOn (writes ++ later) sid none = none := by
  obtain ⟨pre, login, mid, op, post, rfl, hends⟩ := hout
  have hone : sid ∉ (mid ++ op :: (post ++ later)).filterMap SessionOp.insertedSid := by
    have hd' : (pre ++ SessionOp.insert sid login :: (mid ++ op :: (post ++ later))).filterMap
        SessionOp.insertedSid |>.Nodup := by simpa [SidsDistinct] using hd
    rw [List.filterMap_append, List.nodup_append] at hd'
    have hcons := hd'.2.1
    have hsid : (SessionOp.insert sid login).insertedSid = some sid := rfl
    rw [List.filterMap_cons_some hsid, List.nodup_cons] at hcons
    exact hcons.1
  rw [List.filterMap_append, List.mem_append, not_or] at hone
  obtain ⟨hmid, hpost⟩ := hone
  have hrest : sid ∉ (post ++ later).filterMap SessionOp.insertedSid := fun hmem =>
    hpost ((List.sublist_cons_self op _).filterMap _ |>.subset hmem)
  have hnone : op.on sid (runOn mid sid (some login)) = none := by
    cases hv : runOn mid sid (some login) with
    | none => rcases hends with rfl | rfl <;> simp [SessionOp.on]
    | some r =>
      have huser := runOn_user hmid hv
      rcases hends with rfl | rfl <;> simp [SessionOp.on, Option.filter, huser]
  simp only [List.append_assoc, List.cons_append, runOn_append, runOn_cons]
  have hin : SessionOp.on (.insert sid login) sid (runOn pre sid none) = some login := by
    simp [SessionOp.on]
  rw [hin, hnone, ← runOn_append]
  exact runOn_none hrest

theorem timedOut_eq_false_iff {manager : SessionManager} {record : SessionRecord} {time : UInt64} :
    manager.timedOut record time = false ↔
      time.toNat ≤ record.created.toNat + manager.config.absoluteTimeout.toNat ∧
      ∀ idle, manager.config.idleTimeout = some idle →
        time.toNat ≤ record.lastSeen.toNat + idle.toNat := by
  have htime := time.toNat_lt_size
  have hsize : 0 < UInt64.size := by decide
  have hsum : ∀ a b : UInt64, ¬ time > saturatingAdd a b ↔ time.toNat ≤ a.toNat + b.toNat := by
    intro a b
    rw [gt_iff_lt, UInt64.lt_iff_toNat_lt, toNat_saturatingAdd]
    omega
  simp only [SessionManager.timedOut, Bool.or_eq_false_iff, decide_eq_false_iff_not, hsum]
  refine and_congr_right fun _ => ?_
  cases manager.config.idleTimeout with
  | none => simp
  | some idle => simp only [Option.any_some, decide_eq_false_iff_not, hsum, Option.some.injEq,
      forall_eq']

theorem accountInvalid_eq_false_iff {manager : SessionManager} {claims : Claims} {time : UInt64} :
    manager.accountInvalid claims time = false ↔
      ∀ accounts, manager.accounts = some accounts → ∃ acc, accounts claims.user = some acc ∧
        acc.active = true ∧ (∀ e, acc.expires = some e → time ≤ e) ∧
        acc.version = claims.version := by
  unfold SessionManager.accountInvalid
  cases manager.accounts with
  | none => simp
  | some accounts =>
    dsimp only
    cases ha : accounts claims.user with
    | none => simp [ha]
    | some acc =>
      cases he : acc.expires <;> simp [ha, he, and_assoc]

/-- The moment number `i` is one where `p` holds. -/
def At (ms : List Moment) (i : Nat) (p : Moment → Prop) : Prop := ∃ m, ms[i]? = some m ∧ p m

theorem At.append {ms : List Moment} {i : Nat} {p : Moment → Prop} (h : At ms i p)
    (later : List Moment) : At (ms ++ later) i p := by
  obtain ⟨m, hm, hp⟩ := h
  obtain ⟨hi, rfl⟩ := List.getElem?_eq_some_iff.mp hm
  exact ⟨_, by rw [List.getElem?_append_left hi, hm], hp⟩

theorem At.lt {ms : List Moment} {i : Nat} {p : Moment → Prop} (h : At ms i p) :
    i < ms.length := by
  obtain ⟨m, hm, _⟩ := h
  exact (List.getElem?_eq_some_iff.mp hm).1

/-- From `start` on the registry had the session. -/
def Fetched (ms : List Moment) (start : Nat) (claims : Claims) (record : SessionRecord) (i : Nat) :
    Prop :=
  start ≤ i ∧ At ms i fun m => m.manager.store.lookup claims.sid = some record

/-- Then it was within its limits. -/
def Timely (ms : List Moment) (start : Nat) (time : UInt64) (claims : Claims)
    (record : SessionRecord) (j : Nat) : Prop :=
  ∃ i ≤ j, Fetched ms start claims record i ∧ At ms j fun m => m.manager.timedOut record time = false

/-- Then the account was in order. -/
def Passed (ms : List Moment) (start : Nat) (time : UInt64) (claims : Claims)
    (record : SessionRecord) : Prop :=
  ∃ j k, j ≤ k ∧ Timely ms start time claims record j ∧
    At ms k fun m => m.manager.accountInvalid claims time = false

/-- The token is signed for the claims and has not expired. -/
def Verified (codec : TokenCodec) (token : Option Text) (time : UInt64) (claims : Claims) : Prop :=
  token.bind codec.verify = some claims ∧ time ≤ claims.exp

/-- What the stages of `authenticate_at` have found out, at moments since the call began. -/
def AuthStage.Sound (codec : TokenCodec) (ms : List Moment) (token : Option Text) (time : UInt64)
    (start : Nat) : AuthStage → Prop
  | verified claims => Verified codec token time claims
  | fetched claims record =>
    Verified codec token time claims ∧ ∃ i, Fetched ms start claims record i
  | timely claims record =>
    Verified codec token time claims ∧ ∃ j, Timely ms start time claims record j
  | passed claims record =>
    Verified codec token time claims ∧ Passed ms start time claims record
  | evicting claims => Verified codec token time claims
  | done ctx => ctx = .anonymous ∨ ∃ claims record, ctx = .ofUser claims.user claims.roles ∧
    Verified codec token time claims ∧ Passed ms start time claims record

def SessionCall.Sound (codec : TokenCodec) (ms : List Moment) : SessionCall → Prop
  | auth token time start stage => start < ms.length ∧ stage.Sound codec ms token time start
  | _ => True

theorem Passed.append {ms : List Moment} {start : Nat} {time : UInt64} {claims : Claims}
    {record : SessionRecord} (h : Passed ms start time claims record) (later : List Moment) :
    Passed (ms ++ later) start time claims record := by
  obtain ⟨j, k, hjk, ⟨i, hij, ⟨hi, hfetched⟩, htimely⟩, haccount⟩ := h
  exact ⟨j, k, hjk, ⟨i, hij, ⟨hi, hfetched.append later⟩, htimely.append later⟩,
    haccount.append later⟩

theorem SessionCall.Sound.append {codec : TokenCodec} {ms : List Moment} {task : SessionCall}
    (h : task.Sound codec ms) (later : List Moment) : task.Sound codec (ms ++ later) := by
  cases task with
  | absent => trivial
  | login login stage => trivial
  | auth token time start stage =>
    obtain ⟨hstart, hstage⟩ := h
    refine ⟨by rw [List.length_append]; omega, ?_⟩
    cases stage with
    | verified claims => exact hstage
    | fetched claims record =>
      obtain ⟨hv, i, hi, hfetched⟩ := hstage
      exact ⟨hv, i, hi, hfetched.append later⟩
    | timely claims record =>
      obtain ⟨hv, j, i, hij, ⟨hi, hfetched⟩, htimely⟩ := hstage
      exact ⟨hv, j, i, hij, ⟨hi, hfetched.append later⟩, htimely.append later⟩
    | passed claims record => exact ⟨hstage.1, hstage.2.append later⟩
    | evicting claims => exact hstage
    | done ctx =>
      refine hstage.imp_right ?_
      rintro ⟨claims, record, hctx, hv, hp⟩
      exact ⟨claims, record, hctx, hv, hp.append later⟩

/-- The steps of `authenticate_at`, one by one. -/
inductive AuthMove (manager : SessionManager) (time : UInt64) :
    AuthStage → List SessionOp → AuthStage → Prop
  | found {claims record} : manager.store.lookup claims.sid = some record →
    AuthMove manager time (.verified claims) [] (.fetched claims record)
  | missing {claims} : manager.store.lookup claims.sid = none →
    AuthMove manager time (.verified claims) [] (.done .anonymous)
  | late {claims record} : manager.timedOut record time = true →
    AuthMove manager time (.fetched claims record) [] (.evicting claims)
  | intime {claims record} : manager.timedOut record time = false →
    AuthMove manager time (.fetched claims record) [] (.timely claims record)
  | refused {claims record} : manager.accountInvalid claims time = true →
    AuthMove manager time (.timely claims record) [] (.evicting claims)
  | accepted {claims record} : manager.accountInvalid claims time = false →
    AuthMove manager time (.timely claims record) [] (.passed claims record)
  | touched {claims record} : time > record.lastSeen + 60 →
    AuthMove manager time (.passed claims record) [.touch claims.sid time]
      (.done (.ofUser claims.user claims.roles))
  | untouched {claims record} : ¬ time > record.lastSeen + 60 →
    AuthMove manager time (.passed claims record) [] (.done (.ofUser claims.user claims.roles))
  | evicted {claims} : AuthMove manager time (.evicting claims) [.remove claims.sid]
      (.done .anonymous)

theorem authStep_move {manager : SessionManager} {time : UInt64} {stage stage' : AuthStage}
    {ops : List SessionOp} (h : manager.authStep time stage = some (ops, stage')) :
    AuthMove manager time stage ops stage' := by
  cases stage with
  | verified claims =>
    simp only [SessionManager.authStep] at h
    split at h
    next record hr =>
      obtain ⟨rfl, rfl⟩ := Prod.mk.inj (Option.some.inj h)
      exact .found hr
    next hr =>
      obtain ⟨rfl, rfl⟩ := Prod.mk.inj (Option.some.inj h)
      exact .missing hr
  | fetched claims record =>
    simp only [SessionManager.authStep] at h
    split at h
    next hout =>
      obtain ⟨rfl, rfl⟩ := Prod.mk.inj (Option.some.inj h)
      exact .late hout
    next hout =>
      obtain ⟨rfl, rfl⟩ := Prod.mk.inj (Option.some.inj h)
      exact .intime (by simpa using hout)
  | timely claims record =>
    simp only [SessionManager.authStep] at h
    split at h
    next hinvalid =>
      obtain ⟨rfl, rfl⟩ := Prod.mk.inj (Option.some.inj h)
      exact .refused hinvalid
    next hinvalid =>
      obtain ⟨rfl, rfl⟩ := Prod.mk.inj (Option.some.inj h)
      exact .accepted (by simpa using hinvalid)
  | passed claims record =>
    obtain ⟨rfl, rfl⟩ := Prod.mk.inj (Option.some.inj h)
    split
    next hlate => exact .touched hlate
    next hlate => exact .untouched hlate
  | evicting claims =>
    obtain ⟨rfl, rfl⟩ := Prod.mk.inj (Option.some.inj h)
    exact .evicted
  | done ctx => cases h

/-- A step of a call finds out what the next stage stands for. -/
theorem authStep_sound {codec : TokenCodec} {past : List Moment} {now : Moment}
    {token : Option Text} {time : UInt64} {start : Nat} {stage stage' : AuthStage}
    {ops : List SessionOp} (hstart : start < (past ++ [now]).length)
    (h : stage.Sound codec (past ++ [now]) token time start)
    (hstep : now.manager.authStep time stage = some (ops, stage')) :
    stage'.Sound codec (past ++ [now]) token time start := by
  have hlen : (past ++ [now]).length = past.length + 1 := by simp
  have hnow : ∀ {p : Moment → Prop}, p now → At (past ++ [now]) past.length p := fun hp =>
    ⟨now, by simp, hp⟩
  cases authStep_move hstep with
  | found hr => exact ⟨h, past.length, by omega, hnow hr⟩
  | intime hout =>
    obtain ⟨hv, i, hfetched⟩ := h
    have hi := hfetched.2.lt
    exact ⟨hv, past.length, i, by omega, hfetched, hnow hout⟩
  | accepted hvalid =>
    obtain ⟨hv, j, htimely⟩ := h
    have hj := htimely.choose_spec.2.2.lt
    exact ⟨hv, j, past.length, by omega, htimely, hnow hvalid⟩
  | late | refused => exact h.1
  | touched | untouched => exact .inr ⟨_, _, rfl, h.1, h.2⟩
  | missing | evicted => exact .inl rfl

/-- The registry at every moment is what the writes until then make of an empty one. -/
structure Sessions.Inv (s : Sessions) : Prop where
  lookup : ∀ m ∈ s.moments, ∀ k, m.manager.store.lookup k = runOn m.writes k none
  grows : s.moments.Pairwise fun m m' => m.writes <+: m'.writes
  tasks : ∀ t, (s.tasks t).Sound s.now.manager.codec s.moments

namespace Sessions.Inv

variable {s : Sessions}

theorem become (h : s.Inv) {m : Moment} (hlookup : ∀ k, m.manager.store.lookup k = runOn m.writes k none)
    (hgrows : s.now.writes <+: m.writes) (hcodec : m.manager.codec = s.now.manager.codec) :
    (s.become m).Inv := by
  have hmoments : (s.become m).moments = s.moments ++ [m] := rfl
  refine ⟨?_, ?_, fun t => ?_⟩
  · rw [hmoments]
    intro m' hm'
    rcases List.mem_append.mp hm' with hm' | hm'
    · exact h.lookup m' hm'
    · rw [List.mem_singleton.mp hm']
      exact hlookup
  · rw [hmoments, List.pairwise_append]
    refine ⟨h.grows, List.pairwise_singleton _ _, fun m₁ hm₁ m₂ hm₂ => ?_⟩
    rw [List.mem_singleton.mp hm₂]
    have hpair := h.grows
    rw [Sessions.moments, List.pairwise_append] at hpair
    rcases List.mem_append.mp hm₁ with hm₁ | hm₁
    · exact (hpair.2.2 m₁ hm₁ s.now (List.mem_singleton.mpr rfl)).trans hgrows
    · rw [List.mem_singleton.mp hm₁]
      exact hgrows
  · rw [hmoments]
    have htask := (h.tasks t).append [m]
    rw [← hcodec] at htask
    exact htask

theorem write (h : s.Inv) (ops : List SessionOp) : (s.become (s.now.write ops)).Inv := by
  refine h.become (fun k => ?_) (List.prefix_append ..) rfl
  have hnow := h.lookup s.now (by simp [Sessions.moments]) k
  simp only [Moment.write]
  rw [lookup_foldl_apply, hnow, runOn_append]

theorem set (h : s.Inv) {t : Nat} {task : SessionCall}
    (htask : task.Sound s.now.manager.codec s.moments) : (s.set t task).Inv := by
  refine ⟨h.lookup, h.grows, fun t' => ?_⟩
  show SessionCall.Sound _ s.moments (Function.update s.tasks t task t')
  by_cases ht : t' = t
  · rw [ht, Function.update_self]
    exact htask
  · rw [Function.update_of_ne ht]
    exact h.tasks t'

end Sessions.Inv

theorem authBegin_sound {manager : SessionManager} {ms : List Moment} {start : Nat}
    (token : Option Text) (time : UInt64) :
    (manager.authBegin token time).Sound manager.codec ms token time start := by
  unfold SessionManager.authBegin
  split
  next => exact .inl rfl
  next claims hc =>
    split
    next => exact .inl rfl
    next hexp => exact ⟨hc, UInt64.not_lt.mp hexp⟩

theorem SessionStep.inv {s s' : Sessions} {e : SessionEvent} (h : s.Inv)
    (hstep : SessionStep s e s') : s'.Inv := by
  have hnow : s.now ∈ s.moments := by simp [Sessions.moments]
  cases hstep with
  | tick => exact ⟨h.lookup, h.grows, h.tasks⟩
  | login => exact h.set trivial
  | authenticate => exact h.set ⟨by simp [Sessions.moments], authBegin_sound ..⟩
  | advanceLogin => exact (h.write _).set trivial
  | @advanceAuth t random token time start stage ops stage' ht hs =>
    have htask := h.tasks t
    rw [ht] at htask
    have hsound : (SessionCall.auth token time start stage').Sound s.now.manager.codec s.moments :=
      ⟨htask.1, authStep_sound htask.1 htask.2 hs⟩
    exact (h.write ops).set (hsound.append [s.now.write ops])
  | logout => exact h.write _
  | logoutToken => exact h.write _
  | logoutUser => exact h.write _
  | reconfigure => exact h.become (fun k => h.lookup s.now hnow k) (List.prefix_refl _) rfl
  | answer => exact h.become (fun k => h.lookup s.now hnow k) (List.prefix_refl _) rfl

theorem sessions_inv {s : Sessions} (h : sessionSystem.Reachable s) : s.Inv := by
  have hstart : ∀ s, sessionSystem.start s → s.Inv := by
    rintro s ⟨clock, codec, config, accounts, rfl⟩
    refine ⟨fun m hm k => ?_, by simp [Sessions.moments], fun t => trivial⟩
    obtain rfl : m = ⟨⟨∅, codec, config, accounts⟩, []⟩ := by simpa [Sessions.moments] using hm
    rfl
  exact System.Reach.invariant hstart (fun _ _ _ hinv _ hstep => SessionStep.inv hinv hstep) h

/-- A session that was logged out when a call began had its id drawn again, if the call still
found it. -/
theorem Sessions.Inv.not_loggedOut {s : Sessions} (h : s.Inv) (hd : SidsDistinct s.now.writes)
    {start i : Nat} {m mi : Moment} {sid : Text} {record : SessionRecord}
    (hm : s.moments[start]? = some m) (hi : s.moments[i]? = some mi) (hle : start ≤ i)
    (hr : mi.manager.store.lookup sid = some record) : ¬ LoggedOut m.writes sid := by
  intro hout
  have hgrown : m.writes <+: mi.writes := by
    rcases Nat.eq_or_lt_of_le hle with rfl | hlt
    · obtain rfl : m = mi := Option.some.inj (hm.symm.trans hi)
      exact List.prefix_refl _
    · obtain ⟨hs, rfl⟩ := List.getElem?_eq_some_iff.mp hm
      obtain ⟨hi', rfl⟩ := List.getElem?_eq_some_iff.mp hi
      exact List.pairwise_iff_getElem.mp h.grows start i hs hi' hlt
  have hnow : mi.writes <+: s.now.writes := by
    have hpair := h.grows
    rw [Sessions.moments, List.pairwise_append] at hpair
    rcases List.mem_append.mp (List.mem_of_getElem? hi) with hpast | hlast
    · exact hpair.2.2 mi hpast s.now (List.mem_singleton.mpr rfl)
    · obtain rfl : mi = s.now := List.mem_singleton.mp hlast
      exact List.prefix_refl _
  obtain ⟨later, hlater⟩ := hgrown
  have hd' : SidsDistinct (m.writes ++ later) := by
    obtain ⟨rest, hrest⟩ := hnow
    rw [hlater]
    rw [SidsDistinct, ← hrest, List.filterMap_append] at hd
    exact hd.of_append_left
  have hnone := runOn_loggedOut hout hd'
  rw [hlater, ← h.lookup mi (List.mem_of_getElem? hi), hr] at hnone
  simp at hnone

/-- A principal is granted for a signed and unexpired token whose session the registry had at a
moment `i` of the call, which was within its limits at `j` and its account in order at `k`. -/
theorem authenticate_sound {s : Sessions} (h : sessionSystem.Reachable s) {t start : Nat}
    {token : Option Text} {time : UInt64} {ctx : SecurityContext} {user : Text}
    (ht : s.tasks t = .auth token time start (.done ctx)) (hp : ctx.principal = some user) :
    ∃ text claims record i j k, ∃ mi mj mk : Moment,
      token = some text ∧ s.now.manager.codec.Signed text ∧
      s.now.manager.codec.verify text = some claims ∧
      ctx = .ofUser claims.user claims.roles ∧ time ≤ claims.exp ∧
      start ≤ i ∧ i ≤ j ∧ j ≤ k ∧
      s.moments[i]? = some mi ∧ s.moments[j]? = some mj ∧ s.moments[k]? = some mk ∧
      LoggedIn mi.writes claims.sid record ∧
      time.toNat ≤ record.created.toNat + mj.manager.config.absoluteTimeout.toNat ∧
      (∀ idle, mj.manager.config.idleTimeout = some idle →
        time.toNat ≤ record.lastSeen.toNat + idle.toNat) ∧
      (∀ accounts, mk.manager.accounts = some accounts → ∃ acc,
        accounts claims.user = some acc ∧ acc.active = true ∧
        (∀ e, acc.expires = some e → time ≤ e) ∧ acc.version = claims.version) ∧
      (SidsDistinct s.now.writes → ∀ m, s.moments[start]? = some m →
        ¬ LoggedOut m.writes claims.sid) := by
  have hinv := sessions_inv h
  have htask := hinv.tasks t
  rw [ht] at htask
  obtain ⟨-, rfl | ⟨claims, record, rfl, ⟨hverify, hexp⟩, j, k, hjk, htimely, haccount⟩⟩ := htask
  · cases hp
  obtain ⟨i, hij, ⟨hi, mi, hmi, hlookup⟩, mj, hmj, hout⟩ := htimely
  obtain ⟨mk, hmk, hinvalid⟩ := haccount
  obtain ⟨text, rfl, hverify⟩ := Option.bind_eq_some_iff.mp hverify
  obtain ⟨habsolute, hidle⟩ := timedOut_eq_false_iff.mp hout
  have hin : LoggedIn mi.writes claims.sid record := by
    rw [hinv.lookup mi (List.mem_of_getElem? hmi)] at hlookup
    exact loggedIn_of_runOn hlookup
  exact ⟨text, claims, record, i, j, k, mi, mj, mk, rfl, TokenCodec.signed_of_verify hverify,
    hverify, rfl, hexp, hi, hij, hjk, hmi, hmj, hmk, hin, habsolute, hidle,
    accountInvalid_eq_false_iff.mp hinvalid,
    fun hd m hm => hinv.not_loggedOut hd hm hmi hi hlookup⟩

def aliceSession : Claims := ⟨generate (List.replicate 32 0), ['a', 'l', 'i', 'c', 'e'], [], 0, 3600⟩

theorem aliceSession_delimited : aliceSession.Delimited := by
  constructor <;> decide

def aliceRecord : SessionRecord := ⟨aliceSession.user, 0, 0, []⟩

def oneHour : SessionConfig := ⟨3600, 3600, some 100, none⟩

/-- Alice logs in and then authenticates with her token. -/
theorem authenticate_sound_alice : ∃ (s : Sessions) (token : Option Text) (start : Nat)
    (ctx : SecurityContext) (claims : Claims) (record : SessionRecord) (i : Nat) (mi : Moment),
    sessionSystem.Reachable s ∧ s.tasks 1 = .auth token 0 start (.done ctx) ∧
    ctx.principal = some aliceSession.user ∧ start ≤ i ∧ s.moments[i]? = some mi ∧
    LoggedIn mi.writes claims.sid record ∧ (0 : UInt64) ≤ claims.exp := by
  let codec : TokenCodec := ⟨[]⟩
  have hverify : codec.verify (codec.sign aliceSession) = some aliceSession :=
    (codec.verify_sign_iff aliceSession).mpr aliceSession_delimited
  have login := (SessionVisits.start (fun _ _ => True) 0 codec oneHour none).loggedIn (t := 0) rfl
    aliceSession.user [] [] (List.replicate 32 0) rfl rfl (fun _ => trivial) fun _ _ => trivial
  obtain ⟨start, found⟩ := login.found (t := 1) rfl aliceRecord hverify (by decide) rfl (fun _ => trivial)
    fun _ _ => trivial
  obtain ⟨past, granted⟩ := found.granted rfl rfl fun _ _ _ => trivial
  obtain ⟨s, hs, ht⟩ : ∃ s, sessionSystem.Reachable s ∧ s.tasks 1 =
      .auth (some (codec.sign aliceSession)) 0 start (.done (.ofUser aliceSession.user [])) :=
    ⟨_, granted, rfl⟩
  obtain ⟨text, claims, record, i, j, k, mi, mj, mk, _, _, _, _, hexp, hi, _, _, hmi, _, _, hin, _⟩ :=
    authenticate_sound hs ht rfl
  exact ⟨s, _, start, _, claims, record, i, mi, hs, ht, rfl, hi, hmi, hin, hexp⟩

end Kernway
