import Kernway.SessionIdle

namespace Kernway

namespace SessionManager

variable (manager : SessionManager)

def wrote (ops : List SessionOp) : SessionManager :=
  { manager with store := ops.foldl (fun store op => op.apply store) manager.store }

@[simp] theorem wrote_nil : manager.wrote [] = manager := rfl

/-- `authenticate_at` from a stage on, with nothing else at work on the registry. -/
def authRun (time : UInt64) : Nat → SessionManager → AuthStage → SessionManager × AuthStage
  | 0, manager, stage => (manager, stage)
  | fuel + 1, manager, stage =>
    match manager.authStep time stage with
    | some (ops, stage') => authRun time fuel (manager.wrote ops) stage'
    | none => (manager, stage)

def authenticateAt (token : Option Text) (time : UInt64) : SessionManager × AuthStage :=
  let stage := manager.authBegin token time
  authRun time stage.left manager stage

/-- The session of the claims is over: the token, the session or its account is. -/
def Rejects (claims : Claims) (time : UInt64) : Prop :=
  claims.exp < time ∨ ∃ record, manager.store.lookup claims.sid = some record ∧
    (manager.timedOut record time = true ∨ manager.accountInvalid claims time = true)

/-- A call whose session is over returns no principal, takes the session out of the registry, and
leaves the others as they are. -/
def EvictsRejected (token : Text) (time : UInt64) : Prop :=
  ∀ claims, manager.codec.verify token = some claims → manager.Rejects claims time →
    ∃ after, manager.authenticateAt (some token) time = (after, .done .anonymous) ∧
      after.store.lookup claims.sid = none ∧
      ∀ sid, sid ≠ claims.sid → after.store.lookup sid = manager.store.lookup sid

variable {manager}

theorem authRun_step {time : UInt64} {stage stage' : AuthStage} {ops : List SessionOp}
    (h : manager.authStep time stage = some (ops, stage')) (fuel : Nat) :
    authRun time (fuel + 1) manager stage = authRun time fuel (manager.wrote ops) stage' := by
  simp only [authRun, h]

theorem authRun_returned {time : UInt64} {fuel : Nat} {manager : SessionManager}
    {stage : AuthStage} (h : stage.left ≤ fuel) : (authRun time fuel manager stage).2.Returned := by
  induction fuel generalizing manager stage with
  | zero =>
    cases stage with
    | done ctx => exact ⟨ctx, rfl⟩
    | verified | fetched | timely | passed | evicting => simp [AuthStage.left] at h
  | succ fuel ih =>
    by_cases hreturned : stage.Returned
    · obtain ⟨ctx, rfl⟩ := hreturned
      exact ⟨ctx, rfl⟩
    · obtain ⟨ops, stage', hstep, hleft⟩ := @authStep_left manager time stage hreturned
      rw [authRun_step hstep]
      exact ih (by omega)

/-- Every call returns. -/
theorem authenticateAt_returned (manager : SessionManager) (token : Option Text) (time : UInt64) :
    (manager.authenticateAt token time).2.Returned :=
  authRun_returned (Nat.le_refl _)

section Verified

variable {token : Text} {time : UInt64} {claims : Claims}

theorem authenticateAt_expired (hverify : manager.codec.verify token = some claims)
    (hexp : claims.exp < time) :
    manager.authenticateAt (some token) time = (manager, .done .anonymous) := by
  have hbegin : manager.authBegin (some token) time = .done .anonymous := by
    simp [authBegin, hverify, hexp]
  simp [authenticateAt, hbegin, AuthStage.left, authRun]

theorem authenticateAt_evicts (hverify : manager.codec.verify token = some claims)
    (hexp : ¬ claims.exp < time) {record : SessionRecord}
    (hlookup : manager.store.lookup claims.sid = some record)
    (hover : manager.timedOut record time = true ∨ manager.accountInvalid claims time = true) :
    manager.authenticateAt (some token) time =
      (manager.wrote [.remove claims.sid], .done .anonymous) := by
  have hbegin : manager.authBegin (some token) time = .verified claims := by
    simp [authBegin, hverify, hexp]
  have hfetch : manager.authStep time (.verified claims) = some ([], .fetched claims record) := by
    simp [authStep, hlookup]
  have hevict : ∀ fuel, authRun time (fuel + 1) manager (.evicting claims) =
      (manager.wrote [.remove claims.sid], .done .anonymous) := by
    intro fuel
    rw [authRun_step rfl]
    cases fuel <;> rfl
  simp only [authenticateAt, hbegin, AuthStage.left]
  rw [authRun_step hfetch, wrote_nil]
  by_cases htimed : manager.timedOut record time = true
  · have hlate : manager.authStep time (.fetched claims record) = some ([], .evicting claims) := by
      simp [authStep, htimed]
    rw [authRun_step hlate, wrote_nil]
    exact hevict 1
  · have hintime : manager.authStep time (.fetched claims record) =
        some ([], .timely claims record) := by
      simp [authStep, htimed]
    have hrefused : manager.authStep time (.timely claims record) = some ([], .evicting claims) := by
      simp [authStep, hover.resolve_left htimed]
    rw [authRun_step hintime, wrote_nil, authRun_step hrefused, wrote_nil]
    exact hevict 0

/-- An expired token's session is only gone when it was not there. -/
theorem EvictsRejected.of_expired (h : manager.EvictsRejected token time)
    (hverify : manager.codec.verify token = some claims) (hexp : claims.exp < time) :
    manager.store.lookup claims.sid = none := by
  obtain ⟨after, hafter, hgone, -⟩ := h claims hverify (.inl hexp)
  rw [authenticateAt_expired hverify hexp] at hafter
  cases hafter
  exact hgone

theorem lookup_wrote_remove (sid k : Text) :
    (manager.wrote [.remove sid]).store.lookup k = if k = sid then none else manager.store.lookup k :=
  Table.lookup_erase_eq manager.store sid k

end Verified

/-- A rejected session is evicted exactly where none is registered under an expired token. -/
theorem evictsRejected_iff (manager : SessionManager) (token : Text) (time : UInt64) :
    manager.EvictsRejected token time ↔
      ∀ claims, manager.codec.verify token = some claims → claims.exp < time →
        manager.store.lookup claims.sid = none := by
  constructor
  · exact fun h claims hverify hexp => h.of_expired hverify hexp
  · intro h claims hverify hrejects
    by_cases hexp : claims.exp < time
    · exact ⟨manager, authenticateAt_expired hverify hexp, h claims hverify hexp, fun _ _ => rfl⟩
    · obtain ⟨record, hlookup, hover⟩ := hrejects.resolve_left hexp
      refine ⟨_, authenticateAt_evicts hverify hexp hlookup hover, ?_, fun sid hsid => ?_⟩
      · rw [lookup_wrote_remove, if_pos rfl]
      · rw [lookup_wrote_remove, if_neg hsid]

/-- Alice's token is good until 3600; a call after that leaves her session in the registry. -/
theorem not_evictsRejected : ¬ ∀ s, sessionSystem.Reachable s → ∀ (token : Text) (time : UInt64),
    s.now.manager.EvictsRejected token time := by
  intro h
  obtain ⟨past, hin⟩ := alice_in 60 3600
  have hreach := System.Reach.mono (fun _ _ _ => trivial) hin
  have hgone : (aliceIn 3600).manager.store.lookup aliceSession.sid = none :=
    (h _ hreach aliceToken 3601).of_expired verify_aliceToken (by decide)
  revert hgone
  decide +kernel

end SessionManager

end Kernway
