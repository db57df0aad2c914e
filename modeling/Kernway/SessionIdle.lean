import Kernway.SessionSound

namespace Kernway

/-- SessionCall `t` is a call with a token of the session `sid`. -/
def Sessions.Call (s : Sessions) (sid : Text) (t : Nat) (time : UInt64) (claims : Claims)
    (stage : AuthStage) : Prop :=
  claims.sid = sid ∧ ∃ token start, s.tasks t = .auth token time start stage ∧
    token.bind s.now.manager.codec.verify = some claims

def AuthStage.Returned (stage : AuthStage) : Prop := ∃ ctx, stage = .done ctx

/-- At `time` the session has been idle for no longer than the limit since its login, or by
`slack` seconds less than the limit since a call that was granted. -/
def Sessions.InTime (s : Sessions) (slack : Nat) (sid : Text) (time : UInt64)
    (record : SessionRecord) : Prop :=
  time.toNat ≤ record.created.toNat + s.now.manager.config.absoluteTimeout.toNat ∧
  ∀ idle, s.now.manager.config.idleTimeout = some idle →
    time.toNat ≤ record.created.toNat + idle.toNat ∨
    ∃ t used claims ctx, s.Call sid t used claims (.done ctx) ∧ ctx.authenticated = true ∧
      time.toNat + slack ≤ used.toNat + idle.toNat

/-- The next step of a call: no other login draws the session's id, its account is unchanged, and
it is used in time. -/
def Sessions.SteadyCall (s : Sessions) (slack : Nat) (sid : Text) : SessionCall → Prop
  | .login _ (.versioned _ sid' _) => sid' = sid → s.now.manager.store.lookup sid = none
  | .auth _ time _ (.fetched claims record) => claims.sid = sid → s.InTime slack sid time record
  | .auth _ time _ (.timely claims _) =>
    claims.sid = sid → s.now.manager.accountInvalid claims time = false
  | _ => True

/-- What a run does with the session `sid`: it is used in time, within its lifetime, by one call
after the other, its account is unchanged and it is not logged out. Other sessions are free. -/
def Steady (slack : Nat) (sid : Text) (s : Sessions) : SessionEvent → Prop
  | .authenticate _ token => ∀ claims,
    token.bind s.now.manager.codec.verify = some claims → claims.sid = sid →
      s.clock ≤ claims.exp ∧ (s.now.manager.store.lookup sid).isSome ∧
      ∀ t time claims' stage, s.Call sid t time claims' stage → stage.Returned
  | .advance t _ => s.SteadyCall slack sid (s.tasks t)
  | .logout sid' => sid' ≠ sid
  | .logoutToken token =>
    ∀ claims, s.now.manager.codec.verify token = some claims → claims.sid ≠ sid
  | .logoutUser user => ∀ r, s.now.manager.store.lookup sid = some r → r.user ≠ user
  | _ => True

/-- A call of a session that stays: it holds what the registry has, and grants it in the end. -/
def AuthStage.OnTrack (record : SessionRecord) (claims : Claims) : AuthStage → Prop
  | verified _ => True
  | fetched _ r | timely _ r | passed _ r => r = record
  | evicting _ => False
  | done ctx => ctx = .ofUser claims.user claims.roles

/-- The recorded use is at most 60 seconds behind the granted calls, and a call under way is the
only one, and later than they. -/
structure Sessions.Kept (s : Sessions) (sid : Text) (record : SessionRecord) : Prop where
  created : record.created ≤ record.lastSeen
  seen : record.lastSeen ≤ s.clock
  track : ∀ t time claims stage, s.Call sid t time claims stage →
    stage.OnTrack record claims ∧ time ≤ s.clock
  recent : ∀ t used claims ctx, s.Call sid t used claims (.done ctx) →
    used.toNat ≤ record.lastSeen.toNat + 60
  alone : ∀ t time claims stage, s.Call sid t time claims stage → ¬ stage.Returned →
    record.lastSeen ≤ time ∧ ∀ t' used claims' stage', t' ≠ t →
      s.Call sid t' used claims' stage' → stage'.Returned ∧ used ≤ time

structure Sessions.Steadied (s : Sessions) (sid : Text) : Prop where
  logins : ∀ t login stage, s.tasks t = .login login stage → login.time ≤ s.clock
  kept : ∀ record, s.now.manager.store.lookup sid = some record → s.Kept sid record
  unused : s.now.manager.store.lookup sid = none →
    ∀ t time claims stage, ¬ s.Call sid t time claims stage

variable {s s' : Sessions} {sid : Text} {slack : Nat}

/-- What neither writes the session nor changes its calls keeps it as it is. -/
theorem Sessions.Steadied.frame (h : s.Steadied sid) (hclock : s.clock ≤ s'.clock)
    (hlookup : s'.now.manager.store.lookup sid = s.now.manager.store.lookup sid)
    (hcalls : ∀ t time claims stage,
      s'.Call sid t time claims stage ↔ s.Call sid t time claims stage)
    (hlogins : ∀ t login stage, s'.tasks t = .login login stage → login.time ≤ s'.clock) :
    s'.Steadied sid := by
  refine ⟨hlogins, fun record hr => ?_, fun hnone t time claims stage hc => ?_⟩
  · have hkept := h.kept record (hlookup ▸ hr)
    refine ⟨hkept.created, UInt64.le_trans hkept.seen hclock, fun t time claims stage hc => ?_,
      fun t used claims ctx hc => ?_, fun t time claims stage hc hopen => ?_⟩
    · obtain ⟨htrack, htime⟩ := hkept.track t time claims stage ((hcalls ..).mp hc)
      exact ⟨htrack, UInt64.le_trans htime hclock⟩
    · exact hkept.recent t used claims ctx ((hcalls ..).mp hc)
    · obtain ⟨hseen, hothers⟩ := hkept.alone t time claims stage ((hcalls ..).mp hc) hopen
      exact ⟨hseen, fun t' used claims' stage' hne hc' =>
        hothers t' used claims' stage' hne ((hcalls ..).mp hc')⟩
  · exact h.unused (hlookup ▸ hnone) t time claims stage ((hcalls ..).mp hc)

/-- The calls after task `t` has changed. -/
theorem Sessions.call_update {t : Nat} {task : SessionCall}
    (htasks : s'.tasks = Function.update s.tasks t task)
    (hcodec : s'.now.manager.codec = s.now.manager.codec) (t' : Nat) (time : UInt64)
    (claims : Claims) (stage : AuthStage) :
    s'.Call sid t' time claims stage ↔
      (t' ≠ t ∧ s.Call sid t' time claims stage) ∨
      (t' = t ∧ claims.sid = sid ∧ ∃ token start, task = .auth token time start stage ∧
        token.bind s.now.manager.codec.verify = some claims) := by
  unfold Sessions.Call
  rw [htasks, hcodec]
  by_cases ht : t' = t
  · subst ht
    simp
  · simp [ht]

/-- A write that leaves the session alone. -/
theorem lookup_write {m : Moment} {ops : List SessionOp}
    (h : ∀ op ∈ ops, op.on sid (m.manager.store.lookup sid) = m.manager.store.lookup sid) :
    (m.write ops).manager.store.lookup sid = m.manager.store.lookup sid := by
  show (ops.foldl (fun store op => op.apply store) m.manager.store).lookup sid = _
  rw [lookup_foldl_apply]
  induction ops with
  | nil => rfl
  | cons op ops ih =>
    rw [runOn_cons, h op (List.mem_cons_self ..)]
    exact ih fun op hop => h op (List.mem_cons_of_mem _ hop)

/-- A call of the session comes to a stage: the others have returned, and if this one has too, then
the record is at most 60 seconds behind it. -/
theorem Sessions.Kept.put {record record' : SessionRecord} (h : s.Kept sid record) {t start : Nat}
    {token : Option Text} {time : UInt64} {claims : Claims} {stage : AuthStage}
    (htasks : s'.tasks = Function.update s.tasks t (.auth token time start stage))
    (hcodec : s'.now.manager.codec = s.now.manager.codec) (hclock : s'.clock = s.clock)
    (hverify : token.bind s.now.manager.codec.verify = some claims)
    (hothers : ∀ t' used claims' stage', t' ≠ t → s.Call sid t' used claims' stage' →
      stage'.Returned ∧ used ≤ time)
    (htime : time ≤ s.clock) (hcreated : record'.created ≤ record'.lastSeen)
    (hseen : record'.lastSeen ≤ s.clock) (htrack : stage.OnTrack record' claims)
    (hopen : ¬ stage.Returned → record' = record ∧ record.lastSeen ≤ time)
    (hdone : stage.Returned → time.toNat ≤ record'.lastSeen.toNat + 60) :
    s'.Kept sid record' := by
  have hcall : ∀ t' used claims' stage', s'.Call sid t' used claims' stage' ↔ _ :=
    call_update htasks hcodec
  refine ⟨hcreated, hclock ▸ hseen, fun t' used claims' stage' hc => ?_,
    fun t' used claims' ctx hc => ?_, fun t' used claims' stage' hc hopen' => ?_⟩
  · rcases (hcall ..).mp hc with ⟨hne, hc⟩ | ⟨rfl, -, token', start', heq, hv⟩
    · obtain ⟨⟨ctx, rfl⟩, hle⟩ := hothers t' used claims' stage' hne hc
      exact ⟨(h.track t' used claims' _ hc).1, hclock ▸ (h.track t' used claims' _ hc).2⟩
    · injection heq with htoken htime' _ hstage
      subst htoken htime' hstage
      rw [← Option.some.inj (hverify.symm.trans hv)]
      exact ⟨htrack, hclock ▸ htime⟩
  · rcases (hcall ..).mp hc with ⟨hne, hc⟩ | ⟨rfl, -, token', start', heq, hv⟩
    · by_cases hr : stage.Returned
      · have hle := UInt64.le_iff_toNat_le.mp (hothers t' used claims' _ hne hc).2
        have := hdone hr
        omega
      · rw [(hopen hr).1]
        exact h.recent t' used claims' ctx hc
    · injection heq with _ htime' _ hstage
      subst htime'
      exact hdone ⟨ctx, hstage⟩
  · rcases (hcall ..).mp hc with ⟨hne, hc⟩ | ⟨rfl, -, token', start', heq, hv⟩
    · exact absurd (hothers t' used claims' stage' hne hc).1 hopen'
    · injection heq with _ htime' _ hstage
      subst htime' hstage
      obtain ⟨rfl, hle⟩ := hopen hopen'
      refine ⟨hle, fun t'' used' claims'' stage'' hne hc' => ?_⟩
      rcases (hcall ..).mp hc' with ⟨-, hc'⟩ | ⟨heq, -⟩
      · exact hothers t'' used' claims'' stage'' hne hc'
      · exact absurd heq hne

/-- A session used in time passes the check of its timeouts. -/
theorem Sessions.Kept.timely {record : SessionRecord} (h : s.Kept sid record) {time : UInt64}
    (hin : s.InTime 60 sid time record) : s.now.manager.timedOut record time = false := by
  refine timedOut_eq_false_iff.mpr ⟨hin.1, fun idle hidle => ?_⟩
  have hcreated := UInt64.le_iff_toNat_le.mp h.created
  rcases hin.2 idle hidle with hle | ⟨t, used, claims, ctx, hc, -, hle⟩
  · omega
  · have hrecent := h.recent t used claims ctx hc
    omega

/-- The sum in the test wraps, but then the use is recorded. -/
theorem untouched_le {time seen : UInt64} (h : ¬ time > seen + 60) :
    time.toNat ≤ seen.toNat + 60 := by
  have hle := UInt64.le_iff_toNat_le.mp (UInt64.not_lt.mp h)
  rw [UInt64.toNat_add] at hle
  have hmod := Nat.mod_le (seen.toNat + (60 : UInt64).toNat) (2 ^ 64)
  have hsixty : (60 : UInt64).toNat = 60 := rfl
  omega

/-- Not a call with a token of the session. -/
def SessionCall.Other (codec : TokenCodec) (sid : Text) : SessionCall → Prop
  | auth token _ _ _ => ∀ claims, token.bind codec.verify = some claims → claims.sid ≠ sid
  | _ => True

theorem Sessions.call_other {t : Nat} {task : SessionCall}
    (htasks : s'.tasks = Function.update s.tasks t task)
    (hcodec : s'.now.manager.codec = s.now.manager.codec)
    (hold : (s.tasks t).Other s.now.manager.codec sid) (hnew : task.Other s.now.manager.codec sid)
    (t' : Nat) (time : UInt64) (claims : Claims) (stage : AuthStage) :
    s'.Call sid t' time claims stage ↔ s.Call sid t' time claims stage := by
  rw [call_update htasks hcodec]
  constructor
  · rintro (⟨-, hc⟩ | ⟨rfl, hsid, token, start, rfl, hverify⟩)
    · exact hc
    · exact absurd hsid (hnew claims hverify)
  · intro hc
    refine .inl ⟨?_, hc⟩
    rintro rfl
    obtain ⟨hsid, token, start, heq, hverify⟩ := hc
    rw [heq] at hold
    exact hold claims hverify hsid

theorem loginStep_writes {manager : SessionManager} {login : Login} {random : Bytes}
    {stage stage' : LoginStage} {ops : List SessionOp}
    (h : manager.loginStep login random stage = some (ops, stage')) :
    ops = [] ∨ ∃ ttl sid version, stage = .versioned ttl sid version ∧
      ops = [.insert sid ⟨login.user, login.time, login.time, login.meta⟩] := by
  cases stage with
  | configured max ttl =>
    simp only [SessionManager.loginStep] at h
    split at h
    · exact .inl (Prod.mk.inj (Option.some.inj h)).1.symm
    · exact .inl (Prod.mk.inj (Option.some.inj h)).1.symm
  | versioned ttl sid version =>
    exact .inr ⟨ttl, sid, version, rfl, (Prod.mk.inj (Option.some.inj h)).1.symm⟩
  | done result => cases h
  | called => exact .inl (Prod.mk.inj (Option.some.inj h)).1.symm
  | admitted ttl => exact .inl (Prod.mk.inj (Option.some.inj h)).1.symm
  | identified ttl sid => exact .inl (Prod.mk.inj (Option.some.inj h)).1.symm

/-- A call writes only the session that its token names. -/
theorem authStep_writes {manager : SessionManager} {codec : TokenCodec} {ms : List Moment}
    {token : Option Text} {time : UInt64} {start : Nat} {stage stage' : AuthStage}
    {ops : List SessionOp} (hsound : stage.Sound codec ms token time start)
    (h : manager.authStep time stage = some (ops, stage')) {op : SessionOp} (hop : op ∈ ops) :
    ∃ claims, token.bind codec.verify = some claims ∧
      (op = .touch claims.sid time ∨ op = .remove claims.sid) := by
  cases authStep_move h with
  | touched => exact ⟨_, hsound.1.1, .inl (List.mem_singleton.mp hop)⟩
  | evicted => exact ⟨_, hsound.1, .inr (List.mem_singleton.mp hop)⟩
  | found | missing | late | intime | refused | accepted | untouched => simp at hop

theorem Sessions.Steadied.of_kept (record : SessionRecord)
    (hlogins : ∀ t login stage, s.tasks t = .login login stage → login.time ≤ s.clock)
    (hlookup : s.now.manager.store.lookup sid = some record) (hkept : s.Kept sid record) :
    s.Steadied sid := by
  refine ⟨hlogins, fun record' hr => ?_, fun hnone => ?_⟩
  · rw [← Option.some.inj (hlookup.symm.trans hr)]
    exact hkept
  · rw [hlookup] at hnone
    cases hnone

/-- A step of a call of the session keeps it on track. -/
theorem Sessions.Steadied.own (h : s.Steadied sid) {t start : Nat} {token : Option Text}
    {time : UInt64} {claims : Claims} {stage stage' : AuthStage} {ops : List SessionOp}
    (ht : s.tasks t = .auth token time start stage)
    (hverify : token.bind s.now.manager.codec.verify = some claims) (hsid : claims.sid = sid)
    (hsound : stage.Sound s.now.manager.codec s.moments token time start)
    (hok : s.SteadyCall 60 sid (s.tasks t))
    (hstep : s.now.manager.authStep time stage = some (ops, stage')) :
    ((s.become (s.now.write ops)).set t (.auth token time start stage')).Steadied sid := by
  have hcall : s.Call sid t time claims stage := ⟨hsid, token, start, ht, hverify⟩
  obtain ⟨record, hrecord⟩ : ∃ record, s.now.manager.store.lookup sid = some record :=
    Option.ne_none_iff_exists'.mp fun hnone => h.unused hnone t time claims stage hcall
  have hkept := h.kept record hrecord
  obtain ⟨htrack, htime⟩ := hkept.track t time claims stage hcall
  have hclaims : ∀ {c}, Verified s.now.manager.codec token time c → c = claims := fun hv =>
    Option.some.inj (hv.1.symm.trans hverify)
  have hopen : ¬ stage.Returned := by
    rintro ⟨ctx, rfl⟩
    cases hstep
  obtain ⟨hseen, hothers⟩ := hkept.alone t time claims stage hcall hopen
  have hlogins : ∀ t' login lstage, ((s.become (s.now.write ops)).set t
      (.auth token time start stage')).tasks t' = .login login lstage → login.time ≤ s.clock := by
    intro t' login lstage hl
    by_cases heq : t' = t
    · subst heq
      simp [Sessions.set] at hl
    · simp only [Sessions.set, Function.update_of_ne heq] at hl
      exact h.logins t' login lstage hl
  -- The steps that write nothing and do not return.
  have hquiet : ops = [] → ¬ stage'.Returned → stage'.OnTrack record claims →
      ((s.become (s.now.write ops)).set t (.auth token time start stage')).Steadied sid := by
    rintro rfl hopen' htrack'
    refine .of_kept record hlogins (by simpa [Sessions.set, Sessions.become]) ?_
    exact hkept.put rfl rfl rfl hverify hothers htime hkept.created hkept.seen htrack'
      (fun _ => ⟨rfl, hseen⟩) (fun hr => absurd hr hopen')
  rw [ht] at hok
  cases authStep_move hstep with
  | found hr =>
    rw [hclaims hsound, hsid, hrecord] at hr
    exact hquiet rfl (by simp [AuthStage.Returned]) (Option.some.inj hr).symm
  | missing hr =>
    rw [hclaims hsound, hsid, hrecord] at hr
    cases hr
  | late hout =>
    obtain rfl := htrack
    rw [hkept.timely (hok (hclaims hsound.1 ▸ hsid))] at hout
    cases hout
  | intime => exact hquiet rfl (by simp [AuthStage.Returned]) htrack
  | refused hinvalid =>
    rw [hok (hclaims hsound.1 ▸ hsid)] at hinvalid
    cases hinvalid
  | accepted => exact hquiet rfl (by simp [AuthStage.Returned]) htrack
  | @touched c r hlate =>
    obtain rfl := htrack
    obtain rfl := hclaims hsound.1
    refine .of_kept { r with lastSeen := time } hlogins ?_ ?_
    · show (SessionOp.apply (.touch c.sid time) s.now.manager.store).lookup sid = _
      rw [SessionOp.lookup_apply, hrecord, hsid]
      simp [SessionOp.on]
    · exact hkept.put rfl rfl rfl hverify hothers htime
        (UInt64.le_trans hkept.created hseen) htime rfl
        (fun hr => absurd ⟨_, rfl⟩ hr) (fun _ => Nat.le_add_right ..)
  | @untouched c r hlate =>
    obtain rfl := htrack
    obtain rfl := hclaims hsound.1
    refine .of_kept r hlogins (by simpa [Sessions.set, Sessions.become]) ?_
    exact hkept.put rfl rfl rfl hverify hothers htime hkept.created hkept.seen rfl
      (fun hr => absurd ⟨_, rfl⟩ hr) (fun _ => untouched_le hlate)
  | evicted => exact htrack.elim

/-- The logins after task `t` has changed. -/
theorem Sessions.Steadied.logins_update (h : s.Steadied sid) {t : Nat} {task : SessionCall}
    (htasks : s'.tasks = Function.update s.tasks t task) (hclock : s'.clock = s.clock)
    (htask : ∀ login stage, task = .login login stage → login.time ≤ s.clock) :
    ∀ t' login stage, s'.tasks t' = .login login stage → login.time ≤ s'.clock := by
  intro t' login stage hl
  rw [htasks] at hl
  rw [hclock]
  by_cases heq : t' = t
  · rw [heq, Function.update_self] at hl
    exact htask login stage hl
  · rw [Function.update_of_ne heq] at hl
    exact h.logins t' login stage hl

theorem Sessions.Steadied.authenticate (h : s.Steadied sid) {t : Nat} {token : Option Text}
    (hnone : s.tasks t = .absent) (hok : Steady 60 sid s (.authenticate t token)) :
    (s.set t (.auth token s.clock s.past.length
      (s.now.manager.authBegin token s.clock))).Steadied sid := by
  have hold : (s.tasks t).Other s.now.manager.codec sid := by
    rw [hnone]
    trivial
  have hlogins : ∀ t' login stage, (s.set t (.auth token s.clock s.past.length
      (s.now.manager.authBegin token s.clock))).tasks t' = .login login stage →
      login.time ≤ s.clock :=
    h.logins_update rfl rfl fun login stage heq => nomatch heq
  by_cases hother : ∀ claims, token.bind s.now.manager.codec.verify = some claims →
      claims.sid ≠ sid
  · exact h.frame (UInt64.le_refl _) rfl (Sessions.call_other rfl rfl hold hother) hlogins
  obtain ⟨claims, hverify, hsid⟩ : ∃ claims,
      token.bind s.now.manager.codec.verify = some claims ∧ claims.sid = sid := by
    simpa using hother
  obtain ⟨hexp, hsome, hreturned⟩ := hok claims hverify hsid
  obtain ⟨record, hrecord⟩ := Option.isSome_iff_exists.mp hsome
  have hkept := h.kept record hrecord
  have hbegin : s.now.manager.authBegin token s.clock = .verified claims := by
    simp [SessionManager.authBegin, hverify, UInt64.not_lt.mpr hexp]
  rw [hbegin] at hlogins ⊢
  refine .of_kept record hlogins hrecord ?_
  refine hkept.put rfl rfl rfl hverify (fun t' used claims' stage' _ hc => ?_)
    (UInt64.le_refl _) hkept.created hkept.seen trivial (fun _ => ⟨rfl, hkept.seen⟩) ?_
  · exact ⟨hreturned t' used claims' stage' hc, (hkept.track t' used claims' stage' hc).2⟩
  · rintro ⟨ctx, heq⟩
    cases heq

theorem Sessions.Steadied.advanceLogin (h : s.Steadied sid) {t : Nat} {random : Bytes}
    {login : Login} {stage stage' : LoginStage} {ops : List SessionOp}
    (ht : s.tasks t = .login login stage) (hok : s.SteadyCall 60 sid (s.tasks t))
    (hstep : s.now.manager.loginStep login random stage = some (ops, stage')) :
    ((s.become (s.now.write ops)).set t (.login login stage')).Steadied sid := by
  have hold : (s.tasks t).Other s.now.manager.codec sid := by
    rw [ht]
    trivial
  have hlogin := h.logins t login stage ht
  have hlogins : ∀ t' login' lstage, ((s.become (s.now.write ops)).set t
      (.login login stage')).tasks t' = .login login' lstage → login'.time ≤ s.clock :=
    h.logins_update rfl rfl fun login' stage' heq => (SessionCall.login.inj heq).1 ▸ hlogin
  have hcalls : ∀ t' time claims stage'', ((s.become (s.now.write ops)).set t
      (.login login stage')).Call sid t' time claims stage'' ↔ s.Call sid t' time claims stage'' :=
    Sessions.call_other rfl rfl hold trivial
  rcases loginStep_writes hstep with rfl | ⟨ttl, sid', version, rfl, rfl⟩
  · exact h.frame (UInt64.le_refl _) rfl hcalls hlogins
  by_cases hk : sid = sid'
  · subst hk
    rw [ht] at hok
    have hnone : s.now.manager.store.lookup sid = none := hok rfl
    have hno := h.unused hnone
    refine .of_kept ⟨login.user, login.time, login.time, login.meta⟩ hlogins ?_ ?_
    · show (SessionOp.apply (.insert sid _) s.now.manager.store).lookup sid = _
      rw [SessionOp.lookup_apply]
      simp [SessionOp.on]
    · exact ⟨UInt64.le_refl _, hlogin, fun _ _ _ _ hc => (hno _ _ _ _ ((hcalls ..).mp hc)).elim,
        fun _ _ _ _ hc => (hno _ _ _ _ ((hcalls ..).mp hc)).elim,
        fun _ _ _ _ hc => (hno _ _ _ _ ((hcalls ..).mp hc)).elim⟩
  · refine h.frame (UInt64.le_refl _) (lookup_write fun op hop => ?_) hcalls hlogins
    rw [List.mem_singleton.mp hop]
    exact if_neg hk

theorem Sessions.Steadied.advanceAuth (hinv : s.Inv) (h : s.Steadied sid) {t start : Nat}
    {token : Option Text} {time : UInt64} {stage stage' : AuthStage} {ops : List SessionOp}
    (ht : s.tasks t = .auth token time start stage) (hok : s.SteadyCall 60 sid (s.tasks t))
    (hstep : s.now.manager.authStep time stage = some (ops, stage')) :
    ((s.become (s.now.write ops)).set t (.auth token time start stage')).Steadied sid := by
  have htask := hinv.tasks t
  rw [ht] at htask
  by_cases hother : (SessionCall.auth token time start stage).Other s.now.manager.codec sid
  · have hwrites : ∀ op ∈ ops,
        op.on sid (s.now.manager.store.lookup sid) = s.now.manager.store.lookup sid := by
      intro op hop
      obtain ⟨claims, hverify, rfl | rfl⟩ := authStep_writes htask.2 hstep hop
      · exact if_neg (Ne.symm (hother claims hverify))
      · exact if_neg (Ne.symm (hother claims hverify))
    exact h.frame (UInt64.le_refl _) (lookup_write hwrites)
      (Sessions.call_other rfl rfl (ht ▸ hother) hother)
      (h.logins_update rfl rfl fun login stage heq => nomatch heq)
  · obtain ⟨claims, hverify, hsid⟩ : ∃ claims,
        token.bind s.now.manager.codec.verify = some claims ∧ claims.sid = sid := by
      simpa [SessionCall.Other] using hother
    exact h.own ht hverify hsid htask.2 hok hstep

theorem SessionStep.steadied {e : SessionEvent} (hinv : s.Inv) (h : s.Steadied sid)
    (hok : Steady 60 sid s e) (hstep : SessionStep s e s') : s'.Steadied sid := by
  have hquiet : ∀ {m : Moment}, m.manager.codec = s.now.manager.codec →
      m.manager.store.lookup sid = s.now.manager.store.lookup sid → (s.become m).Steadied sid := by
    intro m hcodec hlookup
    refine h.frame (UInt64.le_refl _) hlookup (fun t time claims stage => ?_) h.logins
    unfold Sessions.Call
    simp only [Sessions.become, hcodec]
  cases hstep with
  | tick hle =>
    refine h.frame hle rfl (fun t time claims stage => Iff.rfl) fun t login stage hl => ?_
    exact UInt64.le_trans (h.logins t login stage hl) hle
  | @login t user roles label hnone =>
    refine h.frame (UInt64.le_refl _) rfl (Sessions.call_other rfl rfl (hnone ▸ trivial) trivial)
      (h.logins_update rfl rfl fun login stage heq => ?_)
    rw [← (SessionCall.login.inj heq).1]
    exact UInt64.le_refl _
  | authenticate hnone => exact h.authenticate hnone hok
  | advanceLogin ht _ hs => exact h.advanceLogin ht hok hs
  | advanceAuth ht hs => exact h.advanceAuth hinv ht hok hs
  | logout =>
    refine hquiet rfl (lookup_write fun op hop => ?_)
    rw [List.mem_singleton.mp hop]
    exact if_neg (Ne.symm hok)
  | logoutToken =>
    refine hquiet rfl (lookup_write fun op hop => ?_)
    unfold SessionManager.logoutToken at hop
    split at hop
    next claims hverify =>
      rw [List.mem_singleton.mp hop]
      exact if_neg (Ne.symm (hok claims hverify))
    next => simp at hop
  | logoutUser =>
    refine hquiet rfl (lookup_write fun op hop => ?_)
    rw [List.mem_singleton.mp hop]
    cases hr : s.now.manager.store.lookup sid with
    | none => rfl
    | some r => simp [SessionOp.on, Option.filter, hok r hr]
  | reconfigure => exact hquiet rfl rfl
  | answer => exact hquiet rfl rfl

theorem steady_run (h : sessionSystem.Reach (Steady 60 sid) s) : s.Inv ∧ s.Steadied sid := by
  have hstart : ∀ s, sessionSystem.start s → s.Inv ∧ s.Steadied sid := by
    intro s hs
    refine ⟨sessions_inv (.start hs), ?_⟩
    obtain ⟨clock, codec, config, accounts, rfl⟩ := hs
    refine ⟨fun t login stage hl => (nomatch hl), fun record hr => (nomatch hr), fun _ => ?_⟩
    rintro t time claims stage ⟨_, token, start, ht, _⟩
    cases ht
  refine System.Reach.invariant hstart (fun s e s' hinv hok hstep => ?_) h
  exact ⟨SessionStep.inv hinv.1 hstep, SessionStep.steadied hinv.1 hinv.2 hok hstep⟩

/-- The steps that a call has left, at most. -/
def AuthStage.left : AuthStage → Nat
  | verified _ => 4
  | fetched _ _ => 3
  | timely _ _ => 2
  | passed _ _ | evicting _ => 1
  | done _ => 0

theorem authStep_left {manager : SessionManager} {time : UInt64} {stage : AuthStage}
    (hopen : ¬ stage.Returned) : ∃ ops stage',
      manager.authStep time stage = some (ops, stage') ∧ stage'.left < stage.left := by
  obtain ⟨⟨ops, stage'⟩, hstep⟩ : ∃ next, manager.authStep time stage = some next := by
    cases stage with
    | verified c => cases hl : manager.store.lookup c.sid <;> simp [SessionManager.authStep, hl]
    | fetched c r => cases hl : manager.timedOut r time <;> simp [SessionManager.authStep, hl]
    | timely c r =>
      cases hl : manager.accountInvalid c time <;> simp [SessionManager.authStep, hl]
    | passed c r => exact ⟨_, rfl⟩
    | evicting c => exact ⟨_, rfl⟩
    | done ctx => exact absurd ⟨ctx, rfl⟩ hopen
  refine ⟨ops, stage', hstep, ?_⟩
  cases authStep_move hstep <;> simp [AuthStage.left]

/-- A session used in time is never lost: each of its calls has granted it, or goes on. -/
theorem authenticate_steady (h : sessionSystem.Reach (Steady 60 sid) s) {t : Nat} {time : UInt64}
    {claims : Claims} {stage : AuthStage} (hc : s.Call sid t time claims stage) :
    stage = .done (.ofUser claims.user claims.roles) ∨
      ¬ stage.Returned ∧ ∃ ops stage',
        s.now.manager.authStep time stage = some (ops, stage') ∧ stage'.left < stage.left := by
  obtain ⟨-, hsteady⟩ := steady_run h
  obtain ⟨record, hrecord⟩ : ∃ record, s.now.manager.store.lookup sid = some record :=
    Option.ne_none_iff_exists'.mp fun hnone => hsteady.unused hnone t time claims stage hc
  obtain ⟨htrack, -⟩ := (hsteady.kept record hrecord).track t time claims stage hc
  by_cases hreturned : stage.Returned
  · obtain ⟨ctx, rfl⟩ := hreturned
    exact .inl (congrArg _ htrack)
  · exact .inr ⟨hreturned, authStep_left hreturned⟩

/-- A call of the session begins once the others have returned. -/
theorem SessionVisits.steady_found {clock : UInt64} {now : Moment} {tasks : Nat → SessionCall} {claims : Claims}
    (h : SessionVisits (Steady slack claims.sid) clock now tasks) {t : Nat} (ht : tasks t = .absent)
    {token : Text} (record : SessionRecord)
    (hverify : now.manager.codec.verify token = some claims) (hexp : clock ≤ claims.exp)
    (hlookup : now.manager.store.lookup claims.sid = some record)
    (hreturned : ∀ t' token' time start stage, tasks t' = .auth token' time start stage →
      stage.Returned) :
    ∃ start, SessionVisits (Steady slack claims.sid) clock now
      (Function.update tasks t (.auth (some token) clock start (.fetched claims record))) := by
  refine h.found ht record hverify hexp hlookup (fun past c hc hsid => ?_) fun past start => ?_
  · obtain rfl := Option.some.inj (hverify.symm.trans hc)
    refine ⟨hexp, Option.isSome_iff_exists.mpr ⟨record, hlookup⟩, ?_⟩
    rintro t' time claims' stage ⟨-, token', start, ht', -⟩
    exact hreturned t' token' time start stage ht'
  · simp [Steady, Sessions.SteadyCall]

/-- And is granted when it comes in time. -/
theorem SessionVisits.steady_granted {clock : UInt64} {now : Moment} {tasks : Nat → SessionCall}
    {claims : Claims} {t start : Nat} {token : Text} {record : SessionRecord}
    (h : SessionVisits (Steady slack claims.sid) clock now
      (Function.update tasks t (.auth (some token) clock start (.fetched claims record))))
    (hin : ∀ past, Sessions.InTime ⟨clock, now, past, Function.update tasks t
      (.auth (some token) clock start (.fetched claims record))⟩ slack claims.sid clock record)
    (htimely : now.manager.timedOut record clock = false)
    (haccount : now.manager.accountInvalid claims clock = false) :
    SessionVisits (Steady slack claims.sid) clock
      (now.write (if clock > record.lastSeen + 60 then [.touch claims.sid clock] else []))
      (Function.update tasks t (.auth (some token) clock start
        (.done (.ofUser claims.user claims.roles)))) := by
  refine h.granted htimely haccount fun past stage hstage => ?_
  simp only [List.mem_cons, List.not_mem_nil, or_false] at hstage
  rcases hstage with rfl | rfl | rfl
  · simpa only [Steady, Sessions.SteadyCall, Function.update_self, forall_const] using hin past
  · simpa only [Steady, Sessions.SteadyCall, Function.update_self, forall_const] using haccount
  · simp [Steady, Sessions.SteadyCall]

/-- Alice has logged in at 0. -/
def aliceIn (idle : UInt64) : Moment :=
  Moment.write ⟨⟨∅, ⟨[]⟩, ⟨3600, 3600, some idle, none⟩, none⟩, []⟩
    [.insert aliceSession.sid aliceRecord]

@[irreducible] def aliceToken : Text := TokenCodec.sign ⟨[]⟩ aliceSession

theorem verify_aliceToken : TokenCodec.verify ⟨[]⟩ aliceToken = some aliceSession := by
  rw [aliceToken]
  exact (TokenCodec.verify_sign_iff ⟨[]⟩ aliceSession).mpr aliceSession_delimited

theorem alice_call {t start : Nat} {time : UInt64} {stage : AuthStage}
    (ht : s.tasks t = .auth (some aliceToken) time start stage)
    (hcodec : s.now.manager.codec = ⟨[]⟩) : s.Call aliceSession.sid t time aliceSession stage := by
  refine ⟨rfl, some aliceToken, start, ht, ?_⟩
  rw [hcodec, Option.bind_some, verify_aliceToken]

theorem alice_in (slack : Nat) (idle : UInt64) : SessionVisits (Steady slack aliceSession.sid) 0 (aliceIn idle)
    (Function.update (fun _ => .absent) 0
      (.login ⟨aliceSession.user, [], [], 0⟩ (.done (.ok aliceToken)))) := by
  rw [aliceToken]
  refine (SessionVisits.start _ 0 ⟨[]⟩ ⟨3600, 3600, some idle, none⟩ none).loggedIn rfl
    aliceSession.user [] [] (List.replicate 32 0) rfl rfl (fun _ => trivial) fun past stage => ?_
  cases stage with
  | versioned ttl sid version => exact fun _ => rfl
  | called | configured | admitted | identified | done => trivial

/-- Alice has called at a time within the limit. -/
def aliceCalled (time : UInt64) (start : Nat) : Nat → SessionCall :=
  Function.update (Function.update (fun _ => .absent) 0
    (.login ⟨aliceSession.user, [], [], 0⟩ (.done (.ok aliceToken)))) 1
    (.auth (some aliceToken) time start (.done (.ofUser aliceSession.user aliceSession.roles)))

theorem aliceCalled_returned {time time' : UInt64} {start start' t : Nat} {token : Option Text}
    {stage : AuthStage} (ht : aliceCalled time start t = .auth token time' start' stage) :
    stage.Returned := by
  by_cases h1 : t = 1
  · subst h1
    cases ht
    exact ⟨_, rfl⟩
  by_cases h0 : t = 0
  · subst h0
    cases ht
  · simp [aliceCalled, Function.update_of_ne h0, Function.update_of_ne h1] at ht

theorem alice_granted (slack : Nat) (idle time : UInt64) (hzero : 0 ≤ time) (hexp : time ≤ 3600)
    (hidle : time ≤ idle) : ∃ start, SessionVisits (Steady slack aliceSession.sid) time
      ((aliceIn idle).write (if time > 0 + 60 then [.touch aliceSession.sid time] else []))
      (aliceCalled time start) := by
  have hinTime : time.toNat ≤ aliceRecord.created.toNat + (3600 : UInt64).toNat ∧
      time.toNat ≤ aliceRecord.created.toNat + idle.toNat :=
    ⟨Nat.le_add_left_of_le hexp, Nat.le_add_left_of_le hidle⟩
  have later := (alice_in slack idle).tick hzero fun _ => trivial
  obtain ⟨start, found⟩ := later.steady_found (t := 1) rfl aliceRecord verify_aliceToken hexp rfl
    fun t' token time start stage ht => by
      by_cases h0 : t' = 0
      · subst h0
        cases ht
      · simp [Function.update_of_ne h0] at ht
  refine ⟨start, found.steady_granted (fun past => ⟨hinTime.1, fun limit hlimit => .inl ?_⟩) ?_ rfl⟩
  · rw [← Option.some.inj hlimit]
    exact hinTime.2
  · refine timedOut_eq_false_iff.mpr ⟨hinTime.1, fun limit hlimit => ?_⟩
    rw [← Option.some.inj hlimit]
    exact hinTime.2

/-- With no allowance for the recorded time a session is lost: of a limit of 100 seconds, 60 after
the login are not recorded, and 60 more are too many. -/
theorem not_authenticate_idle : ¬ ∀ (sid : Text) (s : Sessions),
    sessionSystem.Reach (Steady 0 sid) s → ∀ (t : Nat) (time : UInt64) (claims : Claims)
      (ctx : SecurityContext), s.Call sid t time claims (.done ctx) →
      ctx = .ofUser claims.user claims.roles := by
  intro hall
  obtain ⟨start, minute⟩ := alice_granted 0 100 60 (by decide) (by decide) (by decide)
  have twice := minute.tick (show (60 : UInt64) ≤ 120 by decide) fun _ => trivial
  obtain ⟨start', found⟩ := twice.steady_found (t := 2) rfl aliceRecord verify_aliceToken
    (by decide) rfl fun t' token time start stage ht => aliceCalled_returned ht
  have habsolute : (120 : UInt64).toNat ≤ aliceRecord.created.toNat + (3600 : UInt64).toNat := by
    decide
  have late := found.advanceAuth (fun past => ?_) (show SessionManager.authStep _ 120
    (.fetched aliceSession aliceRecord) = some ([], .evicting aliceSession) from rfl)
  · obtain ⟨past, lost⟩ := late.advanceAuth (fun past => trivial) rfl
    have hdone := hall aliceSession.sid _ lost 2 120 aliceSession .anonymous (alice_call rfl rfl)
    cases hdone
  · refine fun _ => ⟨habsolute, fun limit hlimit => .inr ?_⟩
    refine ⟨1, 60, aliceSession, _, alice_call rfl rfl, rfl, ?_⟩
    rw [← Option.some.inj hlimit]
    decide

/-- Alice calls twice, 100 seconds apart under a limit of 200. -/
theorem authenticate_steady_alice : ∃ (s : Sessions) (stage : AuthStage),
    sessionSystem.Reach (Steady 60 aliceSession.sid) s ∧
    s.Call aliceSession.sid 2 200 aliceSession stage ∧
    (stage = .done (.ofUser aliceSession.user aliceSession.roles) ∨
      ¬ stage.Returned ∧ ∃ ops stage',
        s.now.manager.authStep 200 stage = some (ops, stage') ∧ stage'.left < stage.left) := by
  obtain ⟨start, first⟩ := alice_granted 60 200 100 (by decide) (by decide) (by decide)
  have later := first.tick (show (100 : UInt64) ≤ 200 by decide) fun _ => trivial
  obtain ⟨start', found⟩ := later.steady_found (t := 2) rfl { aliceRecord with lastSeen := 100 }
    verify_aliceToken (by decide) rfl fun t' token time start stage ht => aliceCalled_returned ht
  have hlimits : (200 : UInt64).toNat ≤ aliceRecord.created.toNat + (3600 : UInt64).toNat ∧
      (200 : UInt64).toNat ≤ aliceRecord.created.toNat + (200 : UInt64).toNat := by decide
  obtain ⟨past, granted⟩ := found.steady_granted
    (fun past => ⟨hlimits.1, fun limit hlimit => .inl (Option.some.inj hlimit ▸ hlimits.2)⟩) rfl rfl
  exact ⟨_, _, granted, alice_call (t := 2) rfl rfl,
    authenticate_steady granted (alice_call (t := 2) rfl rfl)⟩

end Kernway
