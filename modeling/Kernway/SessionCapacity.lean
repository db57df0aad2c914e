import Mathlib.Data.Finset.Card
import Kernway.SessionSound

namespace Kernway

/-- A login past its reading of the registry's size and before its insert. -/
def LoginStage.LetIn : LoginStage → Prop
  | admitted _ | identified _ _ | versioned _ _ _ => True
  | _ => False

def SessionCall.LetIn (task : SessionCall) : Prop := ∃ login stage, task = .login login stage ∧ stage.LetIn

/-- The sessions, with the logins let in, are at most `n`. -/
def Sessions.Within (s : Sessions) (n : Nat) : Prop :=
  ∀ ts : Finset Nat, (∀ t ∈ ts, (s.tasks t).LetIn) → s.now.manager.store.entries.length + ts.card ≤ n

/-- The configured cap stays as it is. -/
def CapKept (s : Sessions) : SessionEvent → Prop
  | .reconfigure config => config.maxSessions = s.now.manager.config.maxSessions
  | _ => True

/-- The cap stays as it is, and a login that finds room for one more session leaves room for the
logins let in before it. -/
def Roomy (s : Sessions) : SessionEvent → Prop
  | .advance t _ => ∀ login cap ttl, s.tasks t = .login login (.configured (some cap) ttl) →
    s.now.manager.store.entries.length < cap → s.Within (cap - 1)
  | e => CapKept s e

theorem SessionOp.length_apply_le (op : SessionOp) (store : MemorySessionStore) :
    (op.apply store).entries.length ≤ store.entries.length + 1 := by
  cases op with
  | insert sid record => exact Table.length_insert_le store sid record
  | touch sid time => exact Nat.le_succ_of_le (Table.length_modify store sid _).le
  | remove sid => exact Nat.le_succ_of_le (Table.length_erase_le store sid)
  | removeUser user => exact Nat.le_succ_of_le (Table.length_retain_le store _)

theorem SessionOp.length_apply_le_of_insertedSid {op : SessionOp} (h : op.insertedSid = none)
    (store : MemorySessionStore) : (op.apply store).entries.length ≤ store.entries.length := by
  cases op with
  | insert sid record => cases h
  | touch sid time => exact (Table.length_modify store sid _).le
  | remove sid => exact Table.length_erase_le store sid
  | removeUser user => exact Table.length_retain_le store _

theorem length_write_le {m : Moment} {ops : List SessionOp} (h : ∀ op ∈ ops, op.insertedSid = none) :
    (m.write ops).manager.store.entries.length ≤ m.manager.store.entries.length := by
  simp only [Moment.write]
  generalize m.manager.store = store
  induction ops generalizing store with
  | nil => exact Nat.le_refl _
  | cons op ops ih =>
    have hop := SessionOp.length_apply_le_of_insertedSid (h op (List.mem_cons_self ..)) store
    exact (ih (fun x hx => h x (List.mem_cons_of_mem _ hx)) _).trans hop

/-- The calls' cap is the configured one, and the sessions with the logins let in are within it. -/
structure Sessions.Capped (s : Sessions) (cap : Nat) : Prop where
  config : s.now.manager.config.maxSessions = some cap
  read : ∀ t login max ttl, s.tasks t = .login login (.configured max ttl) → max = some cap
  within : s.Within cap

/-- The steps of `login_at`, one by one. -/
inductive LoginMove (manager : SessionManager) (login : Login) :
    LoginStage → List SessionOp → LoginStage → Prop
  | configured : LoginMove manager login .called []
      (.configured manager.config.maxSessions manager.config.tokenTtl)
  | refused {max ttl} : LoginMove manager login (.configured max ttl) [] (.done (.error .atCapacity))
  | admitted {max ttl} : (∀ cap, max = some cap → manager.store.entries.length < cap) →
    LoginMove manager login (.configured max ttl) [] (.admitted ttl)
  | identified {ttl sid} : LoginMove manager login (.admitted ttl) [] (.identified ttl sid)
  | versioned {ttl sid version} :
    LoginMove manager login (.identified ttl sid) [] (.versioned ttl sid version)
  | inserted {ttl sid version token} : LoginMove manager login (.versioned ttl sid version)
      [.insert sid ⟨login.user, login.time, login.time, login.meta⟩] (.done (.ok token))

theorem loginStep_move {manager : SessionManager} {login : Login} {random : Bytes}
    {stage stage' : LoginStage} {ops : List SessionOp}
    (h : manager.loginStep login random stage = some (ops, stage')) :
    LoginMove manager login stage ops stage' := by
  cases stage with
  | configured max ttl =>
    simp only [SessionManager.loginStep] at h
    split at h
    next =>
      obtain ⟨rfl, rfl⟩ := Prod.mk.inj (Option.some.inj h)
      exact .refused
    next hroom =>
      obtain ⟨rfl, rfl⟩ := Prod.mk.inj (Option.some.inj h)
      refine .admitted fun cap hcap => ?_
      subst hcap
      simpa using hroom
  | done result => cases h
  | called =>
    obtain ⟨rfl, rfl⟩ := Prod.mk.inj (Option.some.inj h)
    exact .configured
  | admitted ttl =>
    obtain ⟨rfl, rfl⟩ := Prod.mk.inj (Option.some.inj h)
    exact .identified
  | identified ttl sid =>
    obtain ⟨rfl, rfl⟩ := Prod.mk.inj (Option.some.inj h)
    exact .versioned
  | versioned ttl sid version =>
    obtain ⟨rfl, rfl⟩ := Prod.mk.inj (Option.some.inj h)
    exact .inserted

theorem Roomy.capKept {s : Sessions} {e : SessionEvent} (h : Roomy s e) : CapKept s e := by
  cases e with
  | advance t random => trivial
  | tick | login | authenticate | logout | logoutToken | logoutUser | reconfigure | answer => exact h

section Steps

variable {s s' : Sessions} {cap : Nat}

/-- The shared state changes with no new session, and no call is let in. -/
theorem Sessions.Capped.frame (h : s.Capped cap)
    (hconfig : s'.now.manager.config.maxSessions = s.now.manager.config.maxSessions)
    (hlength : s'.now.manager.store.entries.length ≤ s.now.manager.store.entries.length)
    (hread : ∀ t login max ttl, s'.tasks t = .login login (.configured max ttl) → max = some cap)
    (htasks : ∀ t, (s'.tasks t).LetIn → (s.tasks t).LetIn) : s'.Capped cap where
  config := hconfig.trans h.config
  read := hread
  within ts hts := by
    have hw := h.within ts fun t ht => htasks t (hts t ht)
    omega

/-- What an update of one call keeps of the caps that were read. -/
theorem Sessions.Capped.read_update (h : s.Capped cap) {t : Nat} {task : SessionCall}
    (hnew : ∀ login max ttl, task = .login login (.configured max ttl) → max = some cap)
    {t' : Nat} {login : Login} {max : Option Nat} {ttl : UInt64}
    (ht' : Function.update s.tasks t task t' = .login login (.configured max ttl)) :
    max = some cap := by
  by_cases heq : t' = t
  · subst heq
    exact hnew login max ttl (by rwa [Function.update_self] at ht')
  · exact h.read t' login max ttl (by rwa [Function.update_of_ne heq] at ht')

/-- A call moves on with no new session, and is not let in. -/
theorem Sessions.Capped.move (h : s.Capped cap)
    (hconfig : s'.now.manager.config.maxSessions = s.now.manager.config.maxSessions)
    (hlength : s'.now.manager.store.entries.length ≤ s.now.manager.store.entries.length)
    {t : Nat} {task : SessionCall} (htasks : s'.tasks = Function.update s.tasks t task)
    (hnew : ∀ login max ttl, task = .login login (.configured max ttl) → max = some cap)
    (hin : task.LetIn → (s.tasks t).LetIn) : s'.Capped cap := by
  refine h.frame hconfig hlength (fun t' login max ttl ht' => ?_) fun t' ht' => ?_
  · rw [htasks] at ht'
    exact h.read_update hnew ht'
  · rw [htasks] at ht'
    by_cases heq : t' = t
    · subst heq
      exact hin (by rwa [Function.update_self] at ht')
    · rwa [Function.update_of_ne heq] at ht'

/-- A login is let in where there is room for it beside the others. -/
theorem Sessions.Capped.admit (h : s.Capped cap) {t : Nat} {task : SessionCall}
    (hroom : s.Within (cap - 1)) (hlength : s.now.manager.store.entries.length < cap)
    (hnow : s'.now = s.now) (htasks : s'.tasks = Function.update s.tasks t task)
    (hnew : ∀ login max ttl, task = .login login (.configured max ttl) → max = some cap) :
    s'.Capped cap where
  config := by rw [hnow]; exact h.config
  read t' login max ttl ht' := by
    rw [htasks] at ht'
    exact h.read_update hnew ht'
  within ts hts := by
    have hold : ∀ t' ∈ ts.erase t, (s.tasks t').LetIn := by
      intro t' ht'
      have hin := hts t' (Finset.mem_of_mem_erase ht')
      rwa [htasks, Function.update_of_ne (Finset.ne_of_mem_erase ht')] at hin
    have hw := hroom (ts.erase t) hold
    have hcard : ts.card - 1 ≤ (ts.erase t).card := Finset.pred_card_le_card_erase
    rw [hnow]
    omega

/-- A login that was let in registers its session. -/
theorem Sessions.Capped.register (h : s.Capped cap) {t : Nat} {task : SessionCall}
    (hin : (s.tasks t).LetIn) (hout : ¬ task.LetIn)
    (hconfig : s'.now.manager.config.maxSessions = s.now.manager.config.maxSessions)
    (hlength : s'.now.manager.store.entries.length ≤ s.now.manager.store.entries.length + 1)
    (htasks : s'.tasks = Function.update s.tasks t task)
    (hnew : ∀ login max ttl, task = .login login (.configured max ttl) → max = some cap) :
    s'.Capped cap where
  config := hconfig.trans h.config
  read t' login max ttl ht' := by
    rw [htasks] at ht'
    exact h.read_update hnew ht'
  within ts hts := by
    have hnot : t ∉ ts := by
      intro ht
      have hself := hts t ht
      rw [htasks, Function.update_self] at hself
      exact hout hself
    have hold : ∀ t' ∈ insert t ts, (s.tasks t').LetIn := by
      intro t' ht'
      rcases Finset.mem_insert.mp ht' with rfl | hmem
      · exact hin
      · have hne : t' ≠ t := fun heq => hnot (heq ▸ hmem)
        have hin' := hts t' hmem
        rwa [htasks, Function.update_of_ne hne] at hin'
    have hw := h.within (insert t ts) hold
    rw [Finset.card_insert_of_notMem hnot] at hw
    omega

theorem letIn_login {login : Login} {stage : LoginStage} :
    (SessionCall.login login stage).LetIn ↔ stage.LetIn := by
  constructor
  · rintro ⟨login', stage', heq, hin⟩
    cases heq
    exact hin
  · exact fun hin => ⟨login, stage, rfl, hin⟩

theorem not_letIn_auth {token : Option Text} {time : UInt64} {start : Nat} {stage : AuthStage} :
    ¬ (SessionCall.auth token time start stage).LetIn := by
  rintro ⟨login, stage', heq, -⟩
  cases heq

theorem Sessions.Capped.advanceLogin (h : s.Capped cap) {t : Nat} {random : Bytes} {login : Login}
    {stage stage' : LoginStage} {ops : List SessionOp} (ht : s.tasks t = .login login stage)
    (hok : Roomy s (.advance t random))
    (hstep : s.now.manager.loginStep login random stage = some (ops, stage')) :
    ((s.become (s.now.write ops)).set t (.login login stage')).Capped cap := by
  cases loginStep_move hstep with
  | configured =>
    refine h.move rfl (Nat.le_refl _) rfl (fun _ _ _ heq => ?_) fun hin => ?_
    · cases heq
      exact h.config
    · exact absurd (letIn_login.1 hin) id
  | refused =>
    refine h.move rfl (Nat.le_refl _) rfl (fun _ _ _ heq => nomatch heq) fun hin => ?_
    exact absurd (letIn_login.1 hin) id
  | @admitted max ttl hroom =>
    obtain rfl := h.read t login max ttl ht
    have hlength := hroom cap rfl
    exact h.admit (hok login cap ttl ht hlength) hlength (by rw [Moment.write_nil]; rfl) rfl
      fun _ _ _ heq => nomatch heq
  | identified | versioned =>
    refine h.move rfl (Nat.le_refl _) rfl (fun _ _ _ heq => nomatch heq) fun _ => ?_
    rw [ht]
    exact letIn_login.2 trivial
  | inserted =>
    refine h.register (by rw [ht]; exact letIn_login.2 trivial)
      (fun hin => absurd (letIn_login.1 hin) id) rfl ?_ rfl fun _ _ _ heq => nomatch heq
    exact SessionOp.length_apply_le (.insert _ _) s.now.manager.store

/-- The configured cap stays as it is. -/
theorem SessionStep.maxSessions {e : SessionEvent} (hok : CapKept s e) (hstep : SessionStep s e s') :
    s'.now.manager.config.maxSessions = s.now.manager.config.maxSessions := by
  cases hstep with
  | reconfigure => exact hok
  | tick | login | authenticate | advanceLogin | advanceAuth | logout | logoutToken | logoutUser
  | answer => rfl

theorem SessionStep.capped {e : SessionEvent} (h : s.Capped cap) (hok : Roomy s e)
    (hstep : SessionStep s e s') : s'.Capped cap := by
  cases hstep with
  | tick hle => exact h.frame rfl (Nat.le_refl _) h.read fun _ => id
  | login ht =>
    refine h.move rfl (Nat.le_refl _) rfl (fun _ _ _ heq => nomatch heq) fun hin => ?_
    exact absurd (letIn_login.1 hin) id
  | authenticate ht =>
    exact h.move rfl (Nat.le_refl _) rfl (fun _ _ _ heq => nomatch heq)
      fun hin => absurd hin not_letIn_auth
  | advanceLogin ht hlength hlogin => exact h.advanceLogin ht hok hlogin
  | advanceAuth ht hauth =>
    refine h.move rfl (length_write_le fun op hop => ?_) rfl (fun _ _ _ heq => nomatch heq)
      fun hin => absurd hin not_letIn_auth
    cases authStep_move hauth with
    | touched | evicted =>
      rw [List.mem_singleton.mp hop]
      rfl
    | found | missing | late | intime | refused | accepted | untouched => cases hop
  | logout =>
    refine h.frame rfl (length_write_le fun op hop => ?_) h.read fun _ => id
    rw [List.mem_singleton.mp hop]
    rfl
  | logoutToken =>
    refine h.frame rfl (length_write_le fun op hop => ?_) h.read fun _ => id
    unfold SessionManager.logoutToken at hop
    split at hop
    next =>
      rw [List.mem_singleton.mp hop]
      rfl
    next => cases hop
  | logoutUser =>
    refine h.frame rfl (length_write_le fun op hop => ?_) h.read fun _ => id
    rw [List.mem_singleton.mp hop]
    rfl
  | reconfigure => exact h.frame hok (Nat.le_refl _) h.read fun _ => id
  | answer => exact h.frame rfl (Nat.le_refl _) h.read fun _ => id

end Steps

/-- In every run whose cap stays as configured, and whose logins leave room for the ones let in
before them, the registry never holds more sessions than the cap. -/
theorem sessions_within_cap {s : Sessions} (h : sessionSystem.Reach Roomy s) {cap : Nat}
    (hcap : s.now.manager.config.maxSessions = some cap) :
    s.now.manager.store.entries.length ≤ cap := by
  have hstart : ∀ s, sessionSystem.start s →
      ∀ cap, s.now.manager.config.maxSessions = some cap → s.Capped cap := by
    rintro s ⟨clock, codec, config, accounts, rfl⟩ cap hcap
    refine ⟨hcap, fun _ _ _ _ ht => (nomatch ht), fun ts hts => ?_⟩
    have hempty : ts = ∅ := by
      apply Finset.eq_empty_of_forall_notMem
      intro t ht
      obtain ⟨login, stage, heq, -⟩ := hts t ht
      cases heq
    simp [hempty]
  have hcapped := h.invariant hstart fun s e s' ih hok hstep cap hcap =>
    SessionStep.capped (ih cap ((SessionStep.maxSessions hok.capKept hstep).symm.trans hcap)) hok
      hstep
  have hw := (hcapped cap hcap).within ∅ fun t ht => absurd ht (Finset.notMem_empty t)
  simpa using hw

/-- Two logins, both let in before either registers: no call is let in but the first while the
second reads the size of the empty registry. -/
theorem two_logins {ok : Sessions → SessionEvent → Prop} {cap : Nat} (hcap : 0 < cap)
    (hlogin : ∀ s t user roles «meta», ok s (.login t user roles «meta»))
    (hempty : ∀ s t random, s.now.manager.store = ∅ → (∀ t', (s.tasks t').LetIn → t' = 0) →
      (∀ login max ttl, s.tasks t = .login login (.configured max ttl) → max = some cap) →
      ok s (.advance t random))
    (hlater : ∀ s t random, (∀ login max ttl, s.tasks t ≠ .login login (.configured max ttl)) →
      ok s (.advance t random)) :
    ∃ s, sessionSystem.Reach ok s ∧ s.now.manager.config.maxSessions = some cap ∧
      s.now.manager.store.entries.length = 2 := by
  have hroom : ∀ (manager : SessionManager) login random ttl, manager.store = ∅ →
      manager.loginStep login random (.configured (some cap) ttl) = some ([], .admitted ttl) := by
    intro manager login random ttl hstore
    simp [SessionManager.loginStep, hstore, Nat.ne_of_gt hcap]
  have h₀ : sessionSystem.Reach ok
      { clock := 0, now := ⟨⟨∅, ⟨[]⟩, ⟨3600, 3600, none, some cap⟩, none⟩, []⟩ } :=
    .start ⟨0, ⟨[]⟩, _, none, rfl⟩
  have h₁ := h₀.step (hlogin _ 0 ['a'] [] []) (.login rfl)
  have h₂ := h₁.step (hlogin _ 1 ['b'] [] []) (.login rfl)
  have h₃ := h₂.step (hlater _ 0 (List.replicate 32 0) fun _ _ _ ht => nomatch ht)
    (.advanceLogin rfl rfl rfl)
  have h₄ := h₃.step (hlater _ 1 (List.replicate 32 1) fun _ _ _ ht => nomatch ht)
    (.advanceLogin rfl rfl rfl)
  have h₅ := h₄.step (hempty _ 0 (List.replicate 32 0) rfl ?_ fun _ _ _ ht => by cases ht; rfl)
    (.advanceLogin rfl rfl (hroom _ _ _ _ rfl))
  have h₆ := h₅.step (hempty _ 1 (List.replicate 32 1) rfl ?_ fun _ _ _ ht => by cases ht; rfl)
    (.advanceLogin rfl rfl (hroom _ _ _ _ rfl))
  have h₇ := h₆.step (hlater _ 0 (List.replicate 32 0) fun _ _ _ ht => nomatch ht)
    (.advanceLogin rfl rfl rfl)
  have h₈ := h₇.step (hlater _ 1 (List.replicate 32 1) fun _ _ _ ht => nomatch ht)
    (.advanceLogin rfl rfl rfl)
  have h₉ := h₈.step (hlater _ 0 (List.replicate 32 0) fun _ _ _ ht => nomatch ht)
    (.advanceLogin rfl rfl rfl)
  have h₁₀ := h₉.step (hlater _ 1 (List.replicate 32 1) fun _ _ _ ht => nomatch ht)
    (.advanceLogin rfl rfl rfl)
  have h₁₁ := h₁₀.step (hlater _ 0 (List.replicate 32 0) fun _ _ _ ht => nomatch ht)
    (.advanceLogin rfl rfl rfl)
  have h := h₁₁.step (hlater _ 1 (List.replicate 32 1) fun _ _ _ ht => nomatch ht)
    (.advanceLogin rfl rfl rfl)
  · exact ⟨_, h, rfl, by rfl⟩
  · intro t
    match t with
    | 0 => exact fun _ => rfl
    | 1 => exact fun hin => absurd (letIn_login.1 hin) id
    | _ + 2 => exact fun hin => nomatch hin
  · intro t
    match t with
    | 0 => exact fun _ => rfl
    | 1 => exact fun hin => absurd (letIn_login.1 hin) id
    | _ + 2 => exact fun hin => nomatch hin

/-- Two logins at once under a cap of two. -/
theorem sessions_within_cap_two : ∃ s, sessionSystem.Reach Roomy s ∧
    s.now.manager.config.maxSessions = some 2 ∧ s.now.manager.store.entries.length = 2 ∧
    s.now.manager.store.entries.length ≤ 2 := by
  obtain ⟨s, hs, hcap, hlength⟩ := @two_logins Roomy 2 (by decide) (fun _ _ _ _ _ => trivial)
    (fun s t random hstore hin hread login cap ttl ht _ ts hts => by
      obtain rfl : cap = 2 := Option.some.inj (hread login (some cap) ttl ht)
      have hsub : ts ⊆ {0} := fun t' ht' => Finset.mem_singleton.mpr (hin t' (hts t' ht'))
      have hcard := Finset.card_le_card hsub
      rw [hstore]
      simpa using hcard)
    fun s t random hread login cap ttl ht => absurd ht (hread login _ ttl)
  exact ⟨s, hs, hcap, hlength, sessions_within_cap hs hcap⟩

/-- Two logins at once under a cap of one. -/
theorem not_sessions_within_cap : ¬ ∀ s, sessionSystem.Reach CapKept s →
    ∀ cap, s.now.manager.config.maxSessions = some cap →
      s.now.manager.store.entries.length ≤ cap := by
  intro hall
  obtain ⟨s, hs, hcap, hlength⟩ := @two_logins CapKept 1 (by decide) (fun _ _ _ _ _ => trivial)
    (fun _ _ _ _ _ _ => trivial) fun _ _ _ _ => trivial
  have hle := hall s hs 1 hcap
  omega

end Kernway
