import Kernway.Runs
import Kernway.Session
import Kernway.Token

namespace Kernway

/-- A 64-bit sum that stops at the largest value. -/
def saturatingAdd (a b : UInt64) : UInt64 :=
  if a.toNat + b.toNat < UInt64.size then a + b else UInt64.ofNat (UInt64.size - 1)

theorem toNat_saturatingAdd (a b : UInt64) :
    (saturatingAdd a b).toNat = min (a.toNat + b.toNat) (UInt64.size - 1) := by
  have ha := a.toNat_lt_size
  have hb := b.toNat_lt_size
  unfold saturatingAdd
  split
  next h =>
    rw [UInt64.toNat_add, Nat.mod_eq_of_lt h]
    omega
  next h =>
    rw [UInt64.toNat_ofNat', Nat.mod_eq_of_lt (by decide)]
    omega

/-- The durations are in seconds. -/
structure SessionConfig where
  tokenTtl : UInt64
  absoluteTimeout : UInt64
  idleTimeout : Option UInt64
  maxSessions : Option Nat

structure Account where
  active : Bool
  expires : Option UInt64
  version : UInt64

structure SecurityContext where
  authenticated : Bool := false
  principal : Option Text := none
  roles : List Text := []

def SecurityContext.anonymous : SecurityContext := {}

def SecurityContext.ofUser (principal : Text) (roles : List Text) : SecurityContext :=
  ⟨true, some principal, roles⟩

/-- `CsrfToken::generate` on the 32 bytes that the system's random source returned. -/
def generate (random : Bytes) : Text :=
  random.flatMap fun b => [Nat.digitChar (b.toNat / 16), Nat.digitChar (b.toNat % 16)]

/-- Why a login is refused; the memory store itself never fails. -/
inductive LoginError
  | atCapacity

structure SessionManager where
  store : MemorySessionStore
  codec : TokenCodec
  config : SessionConfig
  accounts : Option (Text → Option Account)

/-- The arguments of `login_at`. -/
structure Login where
  user : Text
  roles : List Text
  «meta» : Text
  time : UInt64

/-- How far a `login_at` is: what it still uses of what it has read. -/
inductive LoginStage
  | called
  | configured (max : Option Nat) (ttl : UInt64)
  | admitted (ttl : UInt64)
  | identified (ttl : UInt64) (sid : Text)
  | versioned (ttl : UInt64) (sid : Text) (version : UInt64)
  | done (result : Except LoginError Text)

/-- How far an `authenticate_at` is. -/
inductive AuthStage
  | verified (claims : Claims)
  | fetched (claims : Claims) (record : SessionRecord)
  | timely (claims : Claims) (record : SessionRecord)
  | passed (claims : Claims) (record : SessionRecord)
  | evicting (claims : Claims)
  | done (ctx : SecurityContext)

namespace SessionManager

variable (manager : SessionManager)

/-- What `login_at` does between two accesses to shared state: its writes, and where it is then. -/
def loginStep (login : Login) (random : Bytes) : LoginStage → Option (List SessionOp × LoginStage)
  | .called => some ([], .configured manager.config.maxSessions manager.config.tokenTtl)
  | .configured max ttl =>
    if max.any fun max => max ≤ manager.store.entries.length then
      some ([], .done (.error .atCapacity))
    else some ([], .admitted ttl)
  | .admitted ttl => some ([], .identified ttl (generate random))
  | .identified ttl sid =>
    let account := manager.accounts.bind fun accounts => accounts login.user
    some ([], .versioned ttl sid ((account.map Account.version).getD 0))
  | .versioned ttl sid version =>
    let claims := ⟨sid, login.user, login.roles, version, login.time + ttl⟩
    some ([.insert sid ⟨login.user, login.time, login.time, login.meta⟩],
      .done (.ok (manager.codec.sign claims)))
  | .done _ => none

/-- `authenticate_at` up to its first access to the registry. -/
def authBegin (token : Option Text) (time : UInt64) : AuthStage :=
  match token.bind manager.codec.verify with
  | none => .done .anonymous
  | some claims => if claims.exp < time then .done .anonymous else .verified claims

/-- Past the absolute timeout, or the idle one. -/
def timedOut (record : SessionRecord) (time : UInt64) : Bool :=
  decide (time > saturatingAdd record.created manager.config.absoluteTimeout) ||
    manager.config.idleTimeout.any fun idle => decide (time > saturatingAdd record.lastSeen idle)

/-- Whether the account, where a provider is attached, refuses the claims. -/
def accountInvalid (claims : Claims) (time : UInt64) : Bool :=
  match manager.accounts with
  | none => false
  | some accounts =>
    match accounts claims.user with
    | none => true
    | some acc => !acc.active || acc.expires.any (fun e => decide (e < time)) ||
        acc.version != claims.version

/-- What `authenticate_at` does between two accesses to shared state. -/
def authStep (time : UInt64) : AuthStage → Option (List SessionOp × AuthStage)
  | .verified claims =>
    match manager.store.lookup claims.sid with
    | some record => some ([], .fetched claims record)
    | none => some ([], .done .anonymous)
  | .fetched claims record =>
    if manager.timedOut record time then some ([], .evicting claims)
    else some ([], .timely claims record)
  | .timely claims record =>
    if manager.accountInvalid claims time then some ([], .evicting claims)
    else some ([], .passed claims record)
  | .passed claims record =>
    -- The sum wraps, as in a release build.
    some (if time > record.lastSeen + 60 then [.touch claims.sid time] else [],
      .done (.ofUser claims.user claims.roles))
  | .evicting claims => some ([.remove claims.sid], .done .anonymous)
  | .done _ => none

def logout (sid : Text) : List SessionOp := [.remove sid]

def logoutToken (token : Text) : List SessionOp :=
  match manager.codec.verify token with
  | some claims => [.remove claims.sid]
  | none => []

def logoutUser (user : Text) : List SessionOp := [.removeUser user]

end SessionManager

/-- The shared state at one moment, and the writes that the registry has taken so far. -/
structure Moment where
  manager : SessionManager
  writes : List SessionOp := []

def Moment.write (m : Moment) (ops : List SessionOp) : Moment where
  manager := { m.manager with store := ops.foldl (fun store op => op.apply store) m.manager.store }
  writes := m.writes ++ ops

@[simp] theorem Moment.write_nil (m : Moment) : m.write [] = m := by
  simp [Moment.write]

/-- A call, kept once it has returned. `start` is the number of moments that were past when the
call began. -/
inductive SessionCall
  | absent
  | login (login : Login) (stage : LoginStage)
  | auth (token : Option Text) (time : UInt64) (start : Nat) (stage : AuthStage)

/-- The manager with the calls on it. -/
structure Sessions where
  clock : UInt64
  now : Moment
  past : List Moment := []
  tasks : Nat → SessionCall := fun _ => .absent

def Sessions.moments (s : Sessions) : List Moment := s.past ++ [s.now]

/-- The shared state becomes `m`. -/
def Sessions.become (s : Sessions) (m : Moment) : Sessions :=
  { s with now := m, past := s.past ++ [s.now] }

def Sessions.set (s : Sessions) (t : Nat) (task : SessionCall) : Sessions :=
  { s with tasks := Function.update s.tasks t task }

inductive SessionEvent
  | tick (time : UInt64)
  | login (t : Nat) (user : Text) (roles : List Text) («meta» : Text)
  | authenticate (t : Nat) (token : Option Text)
  | advance (t : Nat) (random : Bytes)
  | logout (sid : Text)
  | logoutToken (token : Text)
  | logoutUser (user : Text)
  | reconfigure (config : SessionConfig)
  | answer (accounts : Text → Option Account)

/-- The steps of the calls, of the clock, of the configuration and of the account provider. A
removal from the store directly is the write of a logout. -/
inductive SessionStep : Sessions → SessionEvent → Sessions → Prop
  | tick {s time} : s.clock ≤ time → SessionStep s (.tick time) { s with clock := time }
  | login {s t user roles «meta»} : s.tasks t = .absent →
    SessionStep s (.login t user roles «meta»)
      (s.set t (.login ⟨user, roles, «meta», s.clock⟩ .called))
  | authenticate {s t token} : s.tasks t = .absent →
    SessionStep s (.authenticate t token)
      (s.set t (.auth token s.clock s.past.length (s.now.manager.authBegin token s.clock)))
  | advanceLogin {s t random login stage ops stage'} : s.tasks t = .login login stage →
    random.length = 32 → s.now.manager.loginStep login random stage = some (ops, stage') →
    SessionStep s (.advance t random)
      ((s.become (s.now.write ops)).set t (.login login stage'))
  | advanceAuth {s t random token time start stage ops stage'} :
    s.tasks t = .auth token time start stage →
    s.now.manager.authStep time stage = some (ops, stage') →
    SessionStep s (.advance t random)
      ((s.become (s.now.write ops)).set t (.auth token time start stage'))
  | logout {s sid} : SessionStep s (.logout sid)
      (s.become (s.now.write (SessionManager.logout sid)))
  | logoutToken {s token} : SessionStep s (.logoutToken token)
      (s.become (s.now.write (s.now.manager.logoutToken token)))
  | logoutUser {s user} : SessionStep s (.logoutUser user)
      (s.become (s.now.write (SessionManager.logoutUser user)))
  | reconfigure {s config} : SessionStep s (.reconfigure config)
      (s.become { s.now with manager := { s.now.manager with config } })
  | answer {s accounts} : s.now.manager.accounts.isSome →
    SessionStep s (.answer accounts)
      (s.become { s.now with manager := { s.now.manager with accounts := some accounts } })

/-- The manager over an empty registry on. -/
def sessionSystem : System Sessions SessionEvent where
  start s := ∃ clock codec config accounts, s = { clock, now := ⟨⟨∅, codec, config, accounts⟩, []⟩ }
  step := SessionStep

/-- Some run gets to these calls with this shared state. -/
def SessionVisits (ok : Sessions → SessionEvent → Prop) (clock : UInt64) (now : Moment)
    (tasks : Nat → SessionCall) : Prop :=
  ∃ past, sessionSystem.Reach ok ⟨clock, now, past, tasks⟩

namespace SessionVisits

variable {ok : Sessions → SessionEvent → Prop} {clock : UInt64} {now : Moment} {tasks : Nat → SessionCall}

theorem start (ok : Sessions → SessionEvent → Prop) (clock : UInt64) (codec : TokenCodec) (config : SessionConfig)
    (accounts : Option (Text → Option Account)) :
    SessionVisits ok clock ⟨⟨∅, codec, config, accounts⟩, []⟩ fun _ => .absent :=
  ⟨[], .start ⟨clock, codec, config, accounts, rfl⟩⟩

theorem tick (h : SessionVisits ok clock now tasks) {time : UInt64} (hle : clock ≤ time)
    (hok : ∀ past, ok ⟨clock, now, past, tasks⟩ (.tick time)) : SessionVisits ok time now tasks := by
  obtain ⟨past, h⟩ := h
  exact ⟨past, h.step (hok past) (.tick hle)⟩

theorem login (h : SessionVisits ok clock now tasks) {t : Nat} (ht : tasks t = .absent)
    (user : Text) (roles : List Text) («meta» : Text)
    (hok : ∀ past, ok ⟨clock, now, past, tasks⟩ (.login t user roles «meta»)) :
    SessionVisits ok clock now (Function.update tasks t (.login ⟨user, roles, «meta», clock⟩ .called)) := by
  obtain ⟨past, h⟩ := h
  exact ⟨past, h.step (hok past) (.login ht)⟩

theorem authenticate (h : SessionVisits ok clock now tasks) {t : Nat} (ht : tasks t = .absent)
    (token : Option Text)
    (hok : ∀ past, ok ⟨clock, now, past, tasks⟩ (.authenticate t token)) :
    ∃ start, SessionVisits ok clock now
      (Function.update tasks t (.auth token clock start (now.manager.authBegin token clock))) := by
  obtain ⟨past, h⟩ := h
  exact ⟨past.length, past, h.step (hok past) (.authenticate ht)⟩

theorem advanceLogin {t : Nat} {login : Login} {stage stage' : LoginStage} {random : Bytes}
    {ops : List SessionOp} (h : SessionVisits ok clock now (Function.update tasks t (.login login stage)))
    (hlength : random.length = 32)
    (hok : ∀ past, ok ⟨clock, now, past, Function.update tasks t (.login login stage)⟩
      (.advance t random))
    (hstep : now.manager.loginStep login random stage = some (ops, stage')) :
    SessionVisits ok clock (now.write ops) (Function.update tasks t (.login login stage')) := by
  obtain ⟨past, h⟩ := h
  refine ⟨past ++ [now], ?_⟩
  have hrun := h.step (hok past) (.advanceLogin (Function.update_self ..) hlength hstep)
  simpa only [Sessions.become, Sessions.set, Function.update_idem] using hrun

theorem advanceAuth {t start : Nat} {token : Option Text} {time : UInt64}
    {stage stage' : AuthStage} {ops : List SessionOp}
    (h : SessionVisits ok clock now (Function.update tasks t (.auth token time start stage)))
    (hok : ∀ past, ok ⟨clock, now, past, Function.update tasks t (.auth token time start stage)⟩
      (.advance t []))
    (hstep : now.manager.authStep time stage = some (ops, stage')) :
    SessionVisits ok clock (now.write ops)
      (Function.update tasks t (.auth token time start stage')) := by
  obtain ⟨past, h⟩ := h
  refine ⟨past ++ [now], ?_⟩
  have hrun := h.step (hok past) (.advanceAuth (Function.update_self ..) hstep)
  simpa only [Sessions.become, Sessions.set, Function.update_idem] using hrun

/-- A login that nothing interrupts and no cap refuses registers the session. -/
theorem loggedIn (h : SessionVisits ok clock now tasks) {t : Nat} (ht : tasks t = .absent)
    (user : Text) (roles : List Text) («meta» : Text) (random : Bytes)
    (hmax : now.manager.config.maxSessions = none) (hlength : random.length = 32)
    (hcall : ∀ past, ok ⟨clock, now, past, tasks⟩ (.login t user roles «meta»))
    (hok : ∀ past stage, ok ⟨clock, now, past,
      Function.update tasks t (.login ⟨user, roles, «meta», clock⟩ stage)⟩ (.advance t random)) :
    SessionVisits ok clock
      (now.write [.insert (generate random) ⟨user, clock, clock, «meta»⟩])
      (Function.update tasks t (.login ⟨user, roles, «meta», clock⟩ (.done (.ok
        (now.manager.codec.sign ⟨generate random, user, roles,
          ((now.manager.accounts.bind fun accounts => accounts user).map Account.version).getD 0,
          clock + now.manager.config.tokenTtl⟩))))) := by
  have called := h.login ht user roles «meta» hcall
  have configured := called.advanceLogin hlength (fun past => hok past _) rfl
  rw [Moment.write_nil, hmax] at configured
  have admitted := configured.advanceLogin hlength (fun past => hok past _) rfl
  rw [Moment.write_nil] at admitted
  have identified := admitted.advanceLogin hlength (fun past => hok past _) rfl
  rw [Moment.write_nil] at identified
  have versioned := identified.advanceLogin hlength (fun past => hok past _) rfl
  rw [Moment.write_nil] at versioned
  exact versioned.advanceLogin hlength (fun past => hok past _) rfl

/-- A call that nothing interrupts finds the session, up to the check of its timeouts. -/
theorem found (h : SessionVisits ok clock now tasks) {t : Nat} (ht : tasks t = .absent)
    {token : Text} {claims : Claims} (record : SessionRecord)
    (hverify : now.manager.codec.verify token = some claims) (hexp : clock ≤ claims.exp)
    (hlookup : now.manager.store.lookup claims.sid = some record)
    (hcall : ∀ past, ok ⟨clock, now, past, tasks⟩ (.authenticate t (some token)))
    (hok : ∀ past start, ok ⟨clock, now, past,
      Function.update tasks t (.auth (some token) clock start (.verified claims))⟩
      (.advance t [])) :
    ∃ start, SessionVisits ok clock now
      (Function.update tasks t (.auth (some token) clock start (.fetched claims record))) := by
  obtain ⟨start, began⟩ := h.authenticate ht (some token) hcall
  have hbegin : now.manager.authBegin (some token) clock = .verified claims := by
    simp [SessionManager.authBegin, hverify, UInt64.not_lt.mpr hexp]
  rw [hbegin] at began
  have hstep : now.manager.authStep clock (.verified claims) = some ([], .fetched claims record) := by
    simp [SessionManager.authStep, hlookup]
  have fetched := began.advanceAuth (fun past => hok past start) hstep
  rw [Moment.write_nil] at fetched
  exact ⟨start, fetched⟩

/-- And from there on to its end, when the session is in order. -/
theorem granted {t start : Nat} {token : Text} {claims : Claims} {record : SessionRecord}
    (h : SessionVisits ok clock now
      (Function.update tasks t (.auth (some token) clock start (.fetched claims record))))
    (htimely : now.manager.timedOut record clock = false)
    (haccount : now.manager.accountInvalid claims clock = false)
    (hok : ∀ past, ∀ stage ∈ [AuthStage.fetched claims record, .timely claims record,
        .passed claims record],
      ok ⟨clock, now, past, Function.update tasks t (.auth (some token) clock start stage)⟩
        (.advance t [])) :
    SessionVisits ok clock
      (now.write (if clock > record.lastSeen + 60 then [.touch claims.sid clock] else []))
      (Function.update tasks t (.auth (some token) clock start
        (.done (.ofUser claims.user claims.roles)))) := by
  have timely := h.advanceAuth (fun past => hok past _ (by simp))
    (by simp only [SessionManager.authStep, htimely]; rfl)
  rw [Moment.write_nil] at timely
  have passed := timely.advanceAuth (fun past => hok past _ (by simp))
    (by simp only [SessionManager.authStep, haccount]; rfl)
  rw [Moment.write_nil] at passed
  exact passed.advanceAuth (fun past => hok past _ (by simp)) rfl

end SessionVisits

end Kernway
