import Kernway.SessionEviction

namespace Kernway

namespace SessionManager

/-- `authenticate_at` with the token, with nothing else at work, grants. -/
def Authenticates (manager : SessionManager) (token : Text) (time : UInt64) : Prop :=
  ∃ ctx, (manager.authenticateAt (some token) time).2 = .done ctx ∧ ctx.authenticated = true

variable {manager : SessionManager} {token : Text} {time : UInt64} {claims : Claims}

theorem authenticateAt_missing (hverify : manager.codec.verify token = some claims)
    (hexp : ¬ claims.exp < time) (hlookup : manager.store.lookup claims.sid = none) :
    manager.authenticateAt (some token) time = (manager, .done .anonymous) := by
  have hbegin : manager.authBegin (some token) time = .verified claims := by
    simp [authBegin, hverify, hexp]
  have hmissing : manager.authStep time (.verified claims) = some ([], .done .anonymous) := by
    simp [authStep, hlookup]
  simp only [authenticateAt, hbegin, AuthStage.left]
  rw [authRun_step hmissing, wrote_nil]
  rfl

theorem authenticateAt_grants (hverify : manager.codec.verify token = some claims)
    (hexp : ¬ claims.exp < time) {record : SessionRecord}
    (hlookup : manager.store.lookup claims.sid = some record)
    (htimely : manager.timedOut record time = false)
    (haccount : manager.accountInvalid claims time = false) :
    (manager.authenticateAt (some token) time).2 = .done (.ofUser claims.user claims.roles) := by
  have hbegin : manager.authBegin (some token) time = .verified claims := by
    simp [authBegin, hverify, hexp]
  have hfetch : manager.authStep time (.verified claims) = some ([], .fetched claims record) := by
    simp [authStep, hlookup]
  have hintime : manager.authStep time (.fetched claims record) = some ([], .timely claims record) := by
    simp [authStep, htimely]
  have haccept : manager.authStep time (.timely claims record) = some ([], .passed claims record) := by
    simp [authStep, haccount]
  simp only [authenticateAt, hbegin, AuthStage.left]
  rw [authRun_step hfetch, wrote_nil, authRun_step hintime, wrote_nil, authRun_step haccept,
    wrote_nil, authRun_step rfl]
  rfl

/-- The four ways in which a session ends, beside its removal. -/
theorem authenticates_iff (hverify : manager.codec.verify token = some claims) :
    manager.Authenticates token time ↔ time ≤ claims.exp ∧
      ∃ record, manager.store.lookup claims.sid = some record ∧
        manager.timedOut record time = false ∧ manager.accountInvalid claims time = false := by
  have hanonymous : ∀ after, manager.authenticateAt (some token) time = (after, .done .anonymous) →
      ¬ manager.Authenticates token time := by
    rintro after hafter ⟨ctx, hctx, hauth⟩
    rw [hafter] at hctx
    cases hctx
    cases hauth
  by_cases hexp : claims.exp < time
  · have hnot := hanonymous _ (authenticateAt_expired hverify hexp)
    exact iff_of_false hnot fun h => absurd h.1 (UInt64.not_le.mpr hexp)
  cases hlookup : manager.store.lookup claims.sid with
  | none =>
    have hnot := hanonymous _ (authenticateAt_missing hverify hexp hlookup)
    exact iff_of_false hnot fun ⟨_, record, hrecord, _⟩ => nomatch hrecord
  | some record =>
    by_cases hover : manager.timedOut record time = true ∨ manager.accountInvalid claims time = true
    · have hnot := hanonymous _ (authenticateAt_evicts hverify hexp hlookup hover)
      refine iff_of_false hnot ?_
      rintro ⟨_, record', hrecord, htimely, haccount⟩
      cases hrecord
      rcases hover with hover | hover
      · rw [htimely] at hover
        cases hover
      · rw [haccount] at hover
        cases hover
    · obtain ⟨htimely, haccount⟩ := not_or.mp hover
      rw [Bool.not_eq_true] at htimely haccount
      have hgrants := authenticateAt_grants hverify hexp hlookup htimely haccount
      exact iff_of_true ⟨_, hgrants, rfl⟩
        ⟨UInt64.not_lt.mp hexp, record, rfl, htimely, haccount⟩

end SessionManager

namespace Sessions

/-- The token was returned by a login. -/
def Issued (s : Sessions) (token : Text) : Prop :=
  ∃ t login, s.tasks t = .login login (.done (.ok token))

/-- The session is one that its own token would still open. -/
def Live (s : Sessions) (time : UInt64) (sid : Text) : Prop :=
  ∃ token claims, s.Issued token ∧ s.now.manager.codec.verify token = some claims ∧
    claims.sid = sid ∧ s.now.manager.Authenticates token time

/-- The session is too old or too long idle, or its token has expired or its account is refused. -/
def Over (s : Sessions) (time : UInt64) (sid : Text) : Prop :=
  (∃ record, s.now.manager.store.lookup sid = some record ∧
    s.now.manager.timedOut record time = true) ∨
  ∀ token claims, s.Issued token → s.now.manager.codec.verify token = some claims →
    claims.sid = sid → claims.exp < time ∨ s.now.manager.accountInvalid claims time = true

/-- The ids of the registered sessions. -/
def registered (s : Sessions) : List Text := s.now.manager.store.keys

open Classical in
noncomputable def liveCount (s : Sessions) (time : UInt64) : Nat :=
  s.registered.countP fun sid => s.Live time sid

open Classical in
noncomputable def overCount (s : Sessions) (time : UInt64) : Nat :=
  s.registered.countP fun sid => s.Over time sid

variable {s : Sessions} {time : UInt64} {sid : Text}

theorem live_iff_not_over (hin : sid ∈ s.registered) : s.Live time sid ↔ ¬ s.Over time sid := by
  obtain ⟨record, hlookup⟩ := Option.isSome_iff_exists.mp (AList.lookup_isSome.mpr hin)
  constructor
  · rintro ⟨token, claims, hissued, hverify, rfl, hauth⟩ hover
    obtain ⟨hexp, record', hrecord, htimely, haccount⟩ :=
      (SessionManager.authenticates_iff hverify).mp hauth
    rcases hover with ⟨record'', hrecord'', hlate⟩ | hrefused
    · rw [hrecord] at hrecord''
      cases hrecord''
      rw [htimely] at hlate
      cases hlate
    · rcases hrefused token claims hissued hverify rfl with hexpired | hinvalid
      · exact absurd hexp (UInt64.not_le.mpr hexpired)
      · rw [haccount] at hinvalid
        cases hinvalid
  · intro hnot
    obtain ⟨htimely, haccepted⟩ := not_or.mp hnot
    have hintime : s.now.manager.timedOut record time = false := by
      rw [← Bool.not_eq_true]
      exact fun hlate => htimely ⟨record, hlookup, hlate⟩
    push Not at haccepted
    obtain ⟨token, claims, hissued, hverify, rfl, hexp, haccount⟩ := haccepted
    refine ⟨token, claims, hissued, hverify, rfl, (SessionManager.authenticates_iff hverify).mpr ?_⟩
    exact ⟨UInt64.not_lt.mp (by simpa using hexp), record, hlookup, hintime, by simpa using haccount⟩

/-- A registered session is live or over. -/
theorem liveCount_add_overCount (s : Sessions) (time : UInt64) :
    s.liveCount time + s.overCount time = s.registered.length := by
  classical
  have hover : s.overCount time = s.registered.countP fun sid => ¬ s.Live time sid := by
    apply List.countP_congr
    intro sid hin
    simp [live_iff_not_over hin]
  rw [hover, liveCount, List.length_eq_countP_add_countP (fun sid => decide (s.Live time sid))]
  simp

end Sessions

/-- A login under a cap is at its reading of the registry's size. -/
def Sessions.Deciding (s : Sessions) (e : SessionEvent) (login : Login) (max : Nat) : Prop :=
  ∃ t random ttl, e = .advance t random ∧ s.tasks t = .login login (.configured (some max) ttl)

/-- It is refused only with as many live sessions as the cap, and let in only with fewer. -/
def DecidesRight (s : Sessions) (e : SessionEvent) : Prop :=
  ∀ login max, s.Deciding e login max → ∀ random ttl ops stage,
    s.now.manager.loginStep login random (.configured (some max) ttl) = some (ops, stage) →
      (stage = .done (.error .atCapacity) → max ≤ s.liveCount login.time) ∧
      (stage ≠ .done (.error .atCapacity) → s.liveCount login.time < max)

/-- Where the registry is full for a login, the sessions that are over are not more than those
beyond the cap. -/
def FewOver (s : Sessions) (e : SessionEvent) : Prop :=
  ∀ login max, s.Deciding e login max → max ≤ s.registered.length →
    s.overCount login.time + max ≤ s.registered.length

theorem length_registered (s : Sessions) :
    s.registered.length = s.now.manager.store.entries.length := by
  simp [Sessions.registered, AList.keys, List.keys]

theorem decidesRight_iff (s : Sessions) (e : SessionEvent) : DecidesRight s e ↔ FewOver s e := by
  have hlength := length_registered s
  constructor
  · intro h login max hdeciding hfull
    have hcount := s.liveCount_add_overCount login.time
    have hrefused : s.now.manager.loginStep login [] (.configured (some max) 0) =
        some ([], .done (.error .atCapacity)) := by
      simp [SessionManager.loginStep, ← hlength, hfull]
    have hlive := (h login max hdeciding [] 0 _ _ hrefused).1 rfl
    omega
  · intro h login max hdeciding random ttl ops stage hstep
    have hcount := s.liveCount_add_overCount login.time
    simp only [SessionManager.loginStep, Option.any_some, ← hlength, decide_eq_true_eq] at hstep
    split at hstep
    next hfull =>
      cases hstep
      have hfew := h login max hdeciding hfull
      refine ⟨fun _ => ?_, fun hne => absurd rfl hne⟩
      omega
    next hroom =>
      cases hstep
      refine ⟨fun heq => ?_, fun _ => ?_⟩
      · cases heq
      · omega

/-- In a run every login under a cap is decided by the live sessions exactly where every one that
finds the registry full finds few enough sessions in it that are over. -/
theorem decided_by_live_iff {steps : List (Sessions × SessionEvent)} {s : Sessions}
    (hrun : sessionSystem.Trace steps s) :
    (∀ x ∈ steps, DecidesRight x.1 x.2) ↔ ∀ x ∈ steps, FewOver x.1 x.2 := by
  induction hrun with
  | start => simp
  | @step steps s s' e hrun hstep ih =>
    have hlast : (∀ x ∈ [(s, e)], DecidesRight x.1 x.2) ↔ ∀ x ∈ [(s, e)], FewOver x.1 x.2 := by
      simpa using decidesRight_iff s e
    rw [List.forall_mem_append, List.forall_mem_append, ih, hlast]

theorem Sessions.Deciding.of_advance {s : Sessions} {t : Nat} {random : Bytes} {login login' : Login}
    {stage : LoginStage} {max : Nat} (ht : s.tasks t = .login login' stage)
    (h : s.Deciding (.advance t random) login max) : ∃ ttl, stage = .configured (some max) ttl := by
  obtain ⟨t', random', ttl, he, ht'⟩ := h
  cases he
  rw [ht] at ht'
  cases ht'
  exact ⟨ttl, rfl⟩

/-- A login under a cap decides. -/
theorem Sessions.decide_step {s : Sessions} {t : Nat} {login : Login} {max : Nat} {ttl : UInt64}
    (ht : s.tasks t = .login login (.configured (some max) ttl)) :
    ∃ s', sessionSystem.step s (.advance t (List.replicate 32 0)) s' ∧
      s.Deciding (.advance t (List.replicate 32 0)) login max := by
  have hdeciding : s.Deciding (.advance t (List.replicate 32 0)) login max :=
    ⟨t, _, ttl, rfl, ht⟩
  by_cases hfull : max ≤ s.now.manager.store.entries.length
  · have hstep : s.now.manager.loginStep login (List.replicate 32 0) (.configured (some max) ttl) =
        some ([], .done (.error .atCapacity)) := by
      simp [SessionManager.loginStep, hfull]
    exact ⟨_, .advanceLogin ht List.length_replicate hstep, hdeciding⟩
  · have hstep : s.now.manager.loginStep login (List.replicate 32 0) (.configured (some max) ttl) =
        some ([], .admitted ttl) := by
      simp [SessionManager.loginStep, hfull]
    exact ⟨_, .advanceLogin ht List.length_replicate hstep, hdeciding⟩

/-- A first login under a cap of one, at its reading of the empty registry's size. -/
def firstLogin (past : List Moment) : Sessions where
  clock := 0
  now := ⟨⟨∅, ⟨[]⟩, ⟨3600, 3600, none, some 1⟩, none⟩, []⟩
  past := past
  tasks := Function.update (fun _ => .absent) 0
    (.login ⟨['a'], [], [], 0⟩ (.configured (some 1) 3600))

theorem firstLogin_reach : ∃ past, sessionSystem.Reach FewOver (firstLogin past) := by
  have called := (SessionVisits.start FewOver 0 ⟨[]⟩ ⟨3600, 3600, none, some 1⟩ none).login
    (t := 0) rfl ['a'] [] [] fun past login max hdeciding => by
      obtain ⟨_, _, _, he, _⟩ := hdeciding
      cases he
  have configured := called.advanceLogin (List.length_replicate (n := 32) (a := 0))
    (fun past login max hdeciding => by
      have ht : Function.update (fun _ => SessionCall.absent) 0
          (.login ⟨['a'], [], [], 0⟩ .called) 0 = .login ⟨['a'], [], [], 0⟩ .called := rfl
      obtain ⟨_, hstage⟩ := hdeciding.of_advance ht
      cases hstage) rfl
  rw [Moment.write_nil] at configured
  exact configured

theorem decided_by_live_iff_first : ∃ steps s, sessionSystem.Trace steps s ∧
    (∃ x ∈ steps, ∃ login, x.1.Deciding x.2 login 1) ∧ ∀ x ∈ steps, DecidesRight x.1 x.2 := by
  obtain ⟨past, hreach⟩ := firstLogin_reach
  have ht : (firstLogin past).tasks 0 = .login ⟨['a'], [], [], 0⟩ (.configured (some 1) 3600) := rfl
  obtain ⟨s', hstep, hdeciding⟩ := Sessions.decide_step ht
  have hfew : FewOver (firstLogin past) (.advance 0 (List.replicate 32 0)) := by
    intro login max h hfull
    obtain ⟨ttl, hstage⟩ := h.of_advance ht
    cases hstage
    cases hfull
  obtain ⟨steps, hrun, hsteps⟩ := hreach.trace
  have hrun' := hrun.step hstep
  refine ⟨_, _, hrun', ⟨_, List.mem_append_right _ (List.mem_singleton_self _), _, hdeciding⟩,
    (decided_by_live_iff hrun').mpr fun x hx => ?_⟩
  rcases List.mem_append.mp hx with hx | hx
  · exact hsteps x hx
  · rw [List.mem_singleton.mp hx]
    exact hfew

/-- The registry holds Alice's session of time 0 and has room for one; Bob logs in at 3601. -/
def bobCalled (past : List Moment) : Sessions where
  clock := 3601
  now := { aliceIn 3600 with
    manager := { (aliceIn 3600).manager with config := ⟨3600, 3600, none, some 1⟩ } }
  past := past
  tasks := Function.update (Function.update (fun _ => .absent) 0
    (.login ⟨aliceSession.user, [], [], 0⟩ (.done (.ok aliceToken)))) 1
    (.login ⟨['b'], [], [], 3601⟩ (.configured (some 1) 3600))

theorem bobCalled_reach : ∃ past, sessionSystem.Reachable (bobCalled past) := by
  obtain ⟨past, hin⟩ := alice_in 60 3600
  have h₀ : sessionSystem.Reachable _ := System.Reach.mono (fun _ _ _ => trivial) hin
  have h₁ := h₀.step trivial (SessionStep.reconfigure : SessionStep _
    (.reconfigure ⟨3600, 3600, none, some 1⟩) _)
  have hlater : (0 : UInt64) ≤ 3601 := by decide
  have h₂ := h₁.step trivial (SessionStep.tick hlater : SessionStep _ (.tick 3601) _)
  have h₃ := h₂.step trivial (SessionStep.login rfl : SessionStep _ (.login 1 ['b'] [] []) _)
  have h₄ := h₃.step trivial (SessionStep.advanceLogin rfl List.length_replicate rfl :
    SessionStep _ (.advance 1 (List.replicate 32 0)) _)
  rw [Moment.write_nil] at h₄
  simp only [Sessions.become, Sessions.set, Function.update_idem] at h₄
  exact ⟨_, h₄⟩

theorem bobCalled_over (past : List Moment) : (bobCalled past).Over 3601 aliceSession.sid := by
  refine Or.inr fun token claims hissued hverify _ => Or.inl ?_
  obtain ⟨t, login, ht⟩ := hissued
  have htoken : token = aliceToken := by
    by_cases hone : t = 1
    · subst hone
      cases ht
    · by_cases hzero : t = 0
      · subst hzero
        cases ht
        rfl
      · simp [bobCalled, Function.update_of_ne hone, Function.update_of_ne hzero] at ht
  have hclaims : some aliceSession = some claims := by
    rw [← verify_aliceToken, ← htoken]
    exact hverify
  cases hclaims
  decide

/-- Alice's token has expired, and her session still takes Bob's place. -/
theorem not_decided_by_live : ¬ ∀ steps s, sessionSystem.Trace steps s →
    ∀ x ∈ steps, DecidesRight x.1 x.2 := by
  classical
  intro hall
  obtain ⟨past, hreach⟩ := bobCalled_reach
  have ht : (bobCalled past).tasks 1 = .login ⟨['b'], [], [], 3601⟩ (.configured (some 1) 3600) := rfl
  obtain ⟨s', hstep, hdeciding⟩ := Sessions.decide_step ht
  obtain ⟨steps, hrun, -⟩ := hreach.trace
  have hright := hall _ _ (hrun.step hstep) _ (List.mem_append_right _ (List.mem_singleton_self _))
  have hregistered : (bobCalled past).registered = [aliceSession.sid] := rfl
  have hfew := (decidesRight_iff _ _).mp hright _ _ hdeciding (by rw [hregistered]; decide)
  have hover : (bobCalled past).overCount 3601 = 1 := by
    rw [Sessions.overCount, hregistered, List.countP_singleton]
    simp [bobCalled_over past]
  rw [hover, hregistered] at hfew
  exact absurd hfew (by decide)

end Kernway
