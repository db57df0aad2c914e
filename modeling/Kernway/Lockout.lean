import Kernway.Runs
import Kernway.Table
import Kernway.Utf8

namespace Kernway

/-- A 64-bit difference that stops at 0. -/
def saturatingSub (a b : UInt64) : UInt64 := if b ≤ a then a - b else 0

theorem toNat_saturatingSub (a b : UInt64) : (saturatingSub a b).toNat = a.toNat - b.toNat := by
  unfold saturatingSub
  split
  next h => exact UInt64.toNat_sub_of_le a b h
  next h =>
    have hlt : a.toNat < b.toNat := Nat.lt_of_not_le h
    change 0 = _
    omega

/-- The failure record for one key. -/
structure Attempts where
  failures : UInt32
  windowStart : UInt64
  lockedUntil : UInt64
  deriving DecidableEq

/-- The durations are in seconds. -/
structure LoginGuard where
  maxFailures : UInt32
  lockoutSecs : UInt64
  windowSecs : UInt64
  attempts : Table Text Attempts

namespace LoginGuard

def new (maxFailures : UInt32) (lockout : UInt64) : LoginGuard :=
  ⟨max maxFailures 1, lockout, lockout, ∅⟩

variable (guard : LoginGuard)

def withWindow (window : UInt64) : LoginGuard := { guard with windowSecs := window }

def checkAt (key : Text) (now : UInt64) : Bool :=
  (guard.attempts.lookup key).all fun a => decide (a.lockedUntil ≤ now)

def elapsed (a : Attempts) (now : UInt64) : Bool :=
  decide (guard.windowSecs ≤ saturatingSub now a.windowStart)

/-- The entries, those neither locked nor in an active window dropped where there are many. -/
def swept (now : UInt64) : Table Text Attempts :=
  if 1024 < guard.attempts.entries.length then
    guard.attempts.retain fun _ a =>
      decide (now < a.lockedUntil) || decide (saturatingSub now a.windowStart < guard.windowSecs)
  else guard.attempts

/-- The entry of a key once a failure is counted in it. -/
def counted (entry : Option Attempts) (now : UInt64) : Attempts :=
  let entry := entry.getD ⟨0, now, 0⟩
  let entry := if guard.elapsed entry now then { entry with failures := 0, windowStart := now } else entry
  { entry with failures := entry.failures + 1 }

/-- The end of the lock that the failure trips, if it does. The sum wraps, as in a release build. -/
def recordFailureAt (key : Text) (now : UInt64) : LoginGuard × Option UInt64 :=
  let map := guard.swept now
  let entry := guard.counted (map.lookup key) now
  if guard.maxFailures ≤ entry.failures then
    let entry := { entry with lockedUntil := now + guard.lockoutSecs, failures := 0 }
    ({ guard with attempts := map.insert key entry }, some entry.lockedUntil)
  else ({ guard with attempts := map.insert key entry }, none)

def recordSuccess (key : Text) : LoginGuard :=
  { guard with attempts := guard.attempts.erase key }

end LoginGuard

inductive LoginCall
  | failure (key : Text) (now : UInt64)
  | success (key : Text)
  | check (key : Text) (now : UInt64)
  deriving DecidableEq

def LoginCall.time : LoginCall → Option UInt64
  | failure _ now | check _ now => some now
  | success _ => none

inductive LoginAnswer
  | failed (lock : Option UInt64)
  | cleared
  | allowed (ok : Bool)
  deriving DecidableEq

def LoginGuard.call (guard : LoginGuard) : LoginCall → LoginGuard × LoginAnswer
  | .failure key now =>
    let (guard, lock) := guard.recordFailureAt key now
    (guard, .failed lock)
  | .success key => (guard.recordSuccess key, .cleared)
  | .check key now => (guard, .allowed (guard.checkAt key now))

/-- The guard with the calls made of it and their answers, the latest first. -/
structure Lockouts where
  guard : LoginGuard
  clock : UInt64 := 0
  past : List (LoginCall × LoginAnswer) := []

def Lockouts.calls (s : Lockouts) : List LoginCall := s.past.map Prod.fst

inductive LockoutStep : Lockouts → LoginCall → Lockouts → Prop
  | call {s call} : (∀ t, call.time = some t → s.clock ≤ t) →
    LockoutStep s call
      { guard := (s.guard.call call).1
        clock := call.time.getD s.clock
        past := (call, (s.guard.call call).2) :: s.past }

/-- A guard from its construction on, called at non-decreasing times. -/
def lockoutSystem : System Lockouts LoginCall where
  start s := ∃ maxFailures lockout window, 0 < window ∧
    s = { guard := (LoginGuard.new maxFailures lockout).withWindow window }
  step := LockoutStep

/-- `failures` failures of a key within less than `window` seconds lock it for `lockout`. -/
structure LockPolicy where
  failures : Nat
  window : Nat
  lockout : Nat

def LoginGuard.policy (guard : LoginGuard) : LockPolicy :=
  ⟨guard.maxFailures.toNat, guard.windowSecs.toNat, guard.lockoutSecs.toNat⟩

namespace LockPolicy

variable (policy : LockPolicy)

/-- A failure after others, those since the last success and lock, is the last of enough. -/
def trips (times : List Nat) (now : Nat) : Bool :=
  decide (policy.failures ≤
    ((now :: times).filter fun t => decide (now < t + policy.window)).length)

/-- The times of a key's failures since its last success and its last lock. -/
def sinceReset (key : Text) : List LoginCall → List Nat
  | [] => []
  | .failure k now :: past =>
    if k = key then
      if policy.trips (sinceReset key past) now.toNat then [] else now.toNat :: sinceReset key past
    else sinceReset key past
  | .success k :: past => if k = key then [] else sinceReset key past
  | .check _ _ :: past => sinceReset key past

/-- The end of a key's latest lock that no success has cleared. -/
def lockEnd (key : Text) : List LoginCall → Option Nat
  | [] => none
  | .failure k now :: past =>
    if k = key ∧ policy.trips (policy.sinceReset key past) now.toNat then
      some (now.toNat + policy.lockout)
    else lockEnd key past
  | .success k :: past => if k = key then none else lockEnd key past
  | .check _ _ :: past => lockEnd key past

/-- What a call is to answer after the earlier ones. -/
def Answers (past : List LoginCall) : LoginCall → LoginAnswer → Prop
  | .failure key now, .failed lock => lock.map UInt64.toNat =
    if policy.trips (policy.sinceReset key past) now.toNat then some (now.toNat + policy.lockout)
    else none
  | .success _, .cleared => True
  | .check key now, .allowed ok => ok = false ↔ ∃ e, policy.lockEnd key past = some e ∧ now.toNat < e
  | _, _ => False

theorem sinceReset_failure (key : Text) (now : UInt64) (past : List LoginCall) :
    policy.sinceReset key (.failure key now :: past) =
      if policy.trips (policy.sinceReset key past) now.toNat then []
      else now.toNat :: policy.sinceReset key past := by
  rw [sinceReset, if_pos rfl]

theorem lockEnd_failure (key : Text) (now : UInt64) (past : List LoginCall) :
    policy.lockEnd key (.failure key now :: past) =
      if policy.trips (policy.sinceReset key past) now.toNat then some (now.toNat + policy.lockout)
      else policy.lockEnd key past := by
  by_cases h : policy.trips (policy.sinceReset key past) now.toNat = true
  · rw [lockEnd, if_pos ⟨rfl, h⟩, if_pos h]
  · rw [lockEnd, if_neg fun hboth => h hboth.2, if_neg h]

end LockPolicy

/-- Every answer so far is that of a rolling window over the calls before it. -/
def Lockouts.Rolling (s : Lockouts) : Prop :=
  ∀ later call answer earlier, s.past = later ++ (call, answer) :: earlier →
    s.guard.policy.Answers (earlier.map Prod.fst) call answer

/-- No failure since the key's last success and lock is still within the window where its counting
starts afresh, and the end of a lock fits its 64 bits. -/
def Quiet (s : Lockouts) : LoginCall → Prop
  | .failure key now =>
    ((∀ a, s.guard.attempts.lookup key = some a → s.guard.elapsed a now = true) →
      ∀ t ∈ s.guard.policy.sinceReset key s.calls, t + s.guard.policy.window ≤ now.toNat) ∧
    (s.guard.policy.trips (s.guard.policy.sinceReset key s.calls) now.toNat = true →
      now.toNat + s.guard.policy.lockout < 2 ^ 64)
  | _ => True

/-- What a guard keeps of a key, against the failures since its last success and lock and the end
of its latest lock: `current` are those of the window being counted. -/
structure LockPolicy.Keeps (policy : LockPolicy) (clock : UInt64) (times : List Nat)
    (lock : Option Nat) (entry : Option Attempts) : Prop where
  window : ∀ a, entry = some a → a.windowStart ≤ clock ∧ a.failures.toNat < policy.failures ∧
    ∃ current old, times = current ++ old ∧ current.length = a.failures.toNat ∧
      (∀ t ∈ current, a.windowStart.toNat ≤ t) ∧
      ∀ t ∈ old, t + policy.window ≤ a.windowStart.toNat
  locked : ∀ t, clock ≤ t →
    ((∃ a, entry = some a ∧ t < a.lockedUntil) ↔ ∃ e, lock = some e ∧ t.toNat < e)

/-- An entry in which the failure at `now`, after those at `times`, has been counted. -/
structure LockPolicy.Counts (policy : LockPolicy) (now : UInt64) (times : List Nat)
    (a : Attempts) : Prop where
  start : a.windowStart ≤ now
  active : now.toNat < a.windowStart.toNat + policy.window
  split : ∃ current old, now.toNat :: times = current ++ old ∧
    current.length = a.failures.toNat ∧ (∀ t ∈ current, a.windowStart.toNat ≤ t) ∧
    ∀ t ∈ old, t + policy.window ≤ a.windowStart.toNat

namespace LockPolicy

variable {policy : LockPolicy} {clock now : UInt64} {times : List Nat} {lock : Option Nat}
  {entry : Option Attempts}

theorem Keeps.later (h : policy.Keeps clock times lock entry) (hle : clock ≤ now) :
    policy.Keeps now times lock entry where
  window a ha := by
    obtain ⟨hstart, hrest⟩ := h.window a ha
    exact ⟨UInt64.le_trans hstart hle, hrest⟩
  locked t ht := h.locked t (UInt64.le_trans hle ht)

/-- An entry may be dropped once it is not locked. -/
theorem Keeps.drop (h : policy.Keeps now times lock entry)
    (hopen : ∀ a, entry = some a → ¬ now < a.lockedUntil) : policy.Keeps now times lock none where
  window a ha := nomatch ha
  locked t ht := by
    rw [← h.locked t ht]
    constructor
    · rintro ⟨a, ha, -⟩
      cases ha
    · rintro ⟨a, ha, hlt⟩
      exact absurd (UInt64.lt_of_le_of_lt ht hlt) (hopen a ha)

theorem keeps_none (policy : LockPolicy) (clock : UInt64) : policy.Keeps clock [] none none where
  window _ ha := nomatch ha
  locked _ _ := ⟨fun ⟨_, ha, _⟩ => (nomatch ha), fun ⟨_, he, _⟩ => nomatch he⟩

theorem Counts.trips_iff {a : Attempts} (h : policy.Counts now times a) :
    policy.trips times now.toNat = true ↔ policy.failures ≤ a.failures.toNat := by
  obtain ⟨current, old, hsplit, hlength, hcurrent, hold⟩ := h.split
  have hactive := h.active
  have hin : current.filter (fun t => decide (now.toNat < t + policy.window)) = current := by
    apply List.filter_eq_self.mpr
    intro t ht
    have hle := hcurrent t ht
    simp only [decide_eq_true_eq]
    omega
  have hout : old.filter (fun t => decide (now.toNat < t + policy.window)) = [] := by
    apply List.filter_eq_nil_iff.mpr
    intro t ht
    have hle := hold t ht
    have hstart : a.windowStart.toNat ≤ now.toNat := h.start
    simp only [decide_eq_true_eq]
    omega
  rw [trips, decide_eq_true_eq, hsplit, List.filter_append, hin, hout, List.append_nil, hlength]

/-- A window that starts afresh with a failure, the earlier ones being out of it. -/
theorem counts_fresh (hw : 0 < policy.window) (hquiet : ∀ t ∈ times, t + policy.window ≤ now.toNat)
    (lockedUntil : UInt64) : policy.Counts now times ⟨1, now, lockedUntil⟩ where
  start := UInt64.le_refl now
  active := by
    dsimp only
    omega
  split := ⟨[now.toNat], times, rfl, rfl, fun t ht => Nat.le_of_eq (List.mem_singleton.mp ht).symm,
    hquiet⟩

end LockPolicy

namespace LoginGuard

open LockPolicy

variable {guard : LoginGuard} {now : UInt64} {times : List Nat} {lock : Option Nat}

theorem elapsed_iff {a : Attempts} : guard.elapsed a now = true ↔
    guard.policy.window ≤ now.toNat - a.windowStart.toNat := by
  rw [LoginGuard.elapsed, decide_eq_true_eq, UInt64.le_iff_toNat_le, toNat_saturatingSub]
  rfl

theorem counted_cases (guard : LoginGuard) (now : UInt64) (entry : Option Attempts) (hw : 0 < guard.policy.window) :
    (∃ a, entry = some a ∧ guard.elapsed a now = false ∧
      guard.counted entry now = { a with failures := a.failures + 1 }) ∨
    (∀ a, entry = some a → guard.elapsed a now = true) ∧
      guard.counted entry now = ⟨1, now, (entry.map Attempts.lockedUntil).getD 0⟩ := by
  have hfresh : guard.elapsed ⟨0, now, 0⟩ now = false := by
    rw [← Bool.not_eq_true, elapsed_iff]
    dsimp only
    omega
  cases entry with
  | none =>
    refine .inr ⟨fun a ha => (nomatch ha), ?_⟩
    simp only [counted, Option.getD_none, hfresh]
    rfl
  | some a =>
    by_cases ha : guard.elapsed a now = true
    · refine .inr ⟨fun a' ha' => by rwa [← Option.some.inj ha'], ?_⟩
      simp only [counted, Option.getD_some, ha, if_true]
      rfl
    · refine .inl ⟨a, rfl, by simpa using ha, ?_⟩
      simp only [counted, Option.getD_some, ha]
      rfl

theorem counts_counted {entry : Option Attempts} (h : guard.policy.Keeps now times lock entry)
    (hw : 0 < guard.policy.window)
    (hquiet : (∀ a, entry = some a → guard.elapsed a now = true) →
      ∀ t ∈ times, t + guard.policy.window ≤ now.toNat) :
    guard.policy.Counts now times (guard.counted entry now) := by
  rcases counted_cases guard now entry hw with
    ⟨a, ha, hactive, hcounted⟩ | ⟨helapsed, hcounted⟩
  · obtain ⟨hstart, hfew, current, old, rfl, hlength, hcurrent, hold⟩ := h.window a ha
    rw [hcounted]
    refine ⟨hstart, ?_, now.toNat :: current, old, rfl, ?_, fun t ht => ?_, hold⟩
    · have hin : ¬ guard.policy.window ≤ now.toNat - a.windowStart.toNat := by
        rw [← elapsed_iff, hactive]
        simp
      have hle : a.windowStart.toNat ≤ now.toNat := hstart
      dsimp only
      omega
    · have hsize : a.failures.toNat + 1 < 2 ^ 32 :=
        Nat.lt_of_le_of_lt hfew guard.maxFailures.toNat_lt
      rw [List.length_cons, hlength, UInt32.toNat_add]
      exact (Nat.mod_eq_of_lt hsize).symm
    · rcases List.mem_cons.mp ht with rfl | ht
      · exact hstart
      · exact hcurrent t ht
  · rw [hcounted]
    exact counts_fresh hw (hquiet helapsed) _

theorem lockedUntil_counted (guard : LoginGuard) (now : UInt64) (entry : Option Attempts) (hw : 0 < guard.policy.window) :
    (guard.counted entry now).lockedUntil = (entry.map Attempts.lockedUntil).getD 0 := by
  rcases counted_cases guard now entry hw with
    ⟨a, rfl, -, hcounted⟩ | ⟨-, hcounted⟩
  · rw [hcounted]
    rfl
  · rw [hcounted]

/-- The entry that a failure leaves. -/
def failed (guard : LoginGuard) (entry : Option Attempts) (now : UInt64) : Attempts :=
  let entry := guard.counted entry now
  if guard.maxFailures ≤ entry.failures then
    { entry with lockedUntil := now + guard.lockoutSecs, failures := 0 }
  else entry

theorem recordFailureAt_eq (guard : LoginGuard) (key : Text) (now : UInt64) :
    guard.recordFailureAt key now =
      ({ guard with
          attempts :=
            (guard.swept now).insert key (guard.failed ((guard.swept now).lookup key) now) },
        if guard.maxFailures ≤ (guard.counted ((guard.swept now).lookup key) now).failures then
          some (now + guard.lockoutSecs)
        else none) := by
  unfold recordFailureAt failed
  split
  next h => simp only [h, if_true]
  next h => simp only [h, if_false]

theorem keeps_failed {entry : Option Attempts} (h : guard.policy.Keeps now times lock entry)
    (hw : 0 < guard.policy.window) (hpos : 0 < guard.policy.failures)
    (hquiet : (∀ a, entry = some a → guard.elapsed a now = true) →
      ∀ t ∈ times, t + guard.policy.window ≤ now.toNat)
    (hfits : guard.policy.trips times now.toNat = true → now.toNat + guard.policy.lockout < 2 ^ 64) :
    guard.policy.Keeps now
      (if guard.policy.trips times now.toNat then [] else now.toNat :: times)
      (if guard.policy.trips times now.toNat then some (now.toNat + guard.policy.lockout) else lock)
      (some (guard.failed entry now)) := by
  have hcounts := counts_counted h hw hquiet
  have htrips : guard.policy.trips times now.toNat = true ↔
      guard.maxFailures ≤ (guard.counted entry now).failures := hcounts.trips_iff
  have hlocked := lockedUntil_counted guard now entry hw
  unfold failed
  by_cases ht : guard.policy.trips times now.toNat = true
  · have hsum : (now + guard.lockoutSecs).toNat = now.toNat + guard.policy.lockout := by
      rw [UInt64.toNat_add]
      exact Nat.mod_eq_of_lt (hfits ht)
    simp only [ht, if_true, htrips.mp ht]
    refine ⟨fun a ha => ?_, fun t _ => ?_⟩
    · cases ha
      exact ⟨hcounts.start, hpos, [], [], rfl, rfl, by simp, by simp⟩
    · simp only [Option.some.injEq, exists_eq_left', UInt64.lt_iff_toNat_lt, hsum]
  · simp only [ht, Bool.false_eq_true, if_false, mt htrips.mpr ht]
    refine ⟨fun a ha => ?_, fun t hle => ?_⟩
    · cases ha
      exact ⟨hcounts.start, Nat.lt_of_not_le (mt htrips.mpr ht), hcounts.split⟩
    · rw [← h.locked t hle]
      simp only [Option.some.injEq, exists_eq_left', hlocked]
      cases entry with
      | none =>
        simp only [Option.map_none, Option.getD_none, reduceCtorEq, false_and, exists_false, iff_false]
        exact UInt64.not_lt_zero
      | some a => simp only [Option.map_some, Option.getD_some, Option.some.injEq, exists_eq_left']

theorem lookup_swept (guard : LoginGuard) (now : UInt64) (key : Text) :
    (guard.swept now).lookup key = guard.attempts.lookup key ∨
      (guard.swept now).lookup key = none ∧
        ∀ a, guard.attempts.lookup key = some a →
          ¬ now < a.lockedUntil ∧ guard.elapsed a now = true := by
  unfold swept
  split
  next =>
    rw [Table.lookup_retain]
    cases guard.attempts.lookup key with
    | none => exact .inl rfl
    | some a =>
      rw [Option.filter_some]
      split
      next => exact .inl rfl
      next hdrop =>
        refine .inr ⟨rfl, fun a' ha' => ?_⟩
        obtain rfl := Option.some.inj ha'
        simpa [elapsed] using hdrop
  next => exact .inl rfl

theorem policy_call (guard : LoginGuard) (call : LoginCall) :
    (guard.call call).1.policy = guard.policy := by
  cases call with
  | failure key now =>
    simp only [LoginGuard.call, recordFailureAt_eq]
    rfl
  | success key => rfl
  | check key now => rfl

theorem checkAt_eq_false (guard : LoginGuard) (key : Text) (now : UInt64) :
    guard.checkAt key now = false ↔
      ∃ a, guard.attempts.lookup key = some a ∧ now < a.lockedUntil := by
  unfold checkAt
  cases guard.attempts.lookup key with
  | none => simp
  | some a => simp

end LoginGuard

structure Lockouts.Inv (s : Lockouts) : Prop where
  window : 0 < s.guard.policy.window
  failures : 0 < s.guard.policy.failures
  keeps : ∀ key, s.guard.policy.Keeps s.clock (s.guard.policy.sinceReset key s.calls)
    (s.guard.policy.lockEnd key s.calls) (s.guard.attempts.lookup key)
  rolling : s.Rolling

namespace Lockouts.Inv

open LoginGuard

variable {s : Lockouts}

/-- What a sweep leaves, and the clock, change nothing of what a key's entry keeps. -/
theorem swept (h : s.Inv) {now : UInt64} (hle : s.clock ≤ now) (key : Text) :
    s.guard.policy.Keeps now (s.guard.policy.sinceReset key s.calls)
      (s.guard.policy.lockEnd key s.calls) ((s.guard.swept now).lookup key) := by
  have hkeeps := (h.keeps key).later hle
  rcases lookup_swept s.guard now key with heq | ⟨hnone, hdrop⟩
  · rwa [heq]
  · rw [hnone]
    exact hkeeps.drop fun a ha => (hdrop a ha).1

theorem quiet_swept {key : Text} {now : UInt64} (hquiet : Quiet s (.failure key now))
    (helapsed : ∀ a, (s.guard.swept now).lookup key = some a → s.guard.elapsed a now = true) :
    ∀ t ∈ s.guard.policy.sinceReset key s.calls, t + s.guard.policy.window ≤ now.toNat := by
  apply hquiet.1
  intro a ha
  rcases lookup_swept s.guard now key with heq | ⟨-, hdrop⟩
  · exact helapsed a (heq.trans ha)
  · exact (hdrop a ha).2

/-- The answer to a call is right, and with it all so far. -/
theorem rolling_cons (h : s.Inv) {call : LoginCall}
    (hanswer : s.guard.policy.Answers s.calls call (s.guard.call call).2) :
    ∀ later c answer earlier,
      (call, (s.guard.call call).2) :: s.past = later ++ (c, answer) :: earlier →
      s.guard.policy.Answers (earlier.map Prod.fst) c answer := by
  intro later c answer earlier heq
  cases later with
  | nil =>
    obtain ⟨hhead, rfl⟩ := List.cons.inj heq
    cases hhead
    exact hanswer
  | cons x later => exact h.rolling later c answer earlier (List.cons.inj heq).2

theorem failure (h : s.Inv) {key : Text} {now : UInt64} (hle : s.clock ≤ now)
    (hquiet : Quiet s (.failure key now)) :
    Inv { guard := (s.guard.call (.failure key now)).1
          clock := now
          past := (.failure key now, (s.guard.call (.failure key now)).2) :: s.past } := by
  have hpolicy := policy_call s.guard (.failure key now)
  have hcounts := counts_counted (h.swept hle key) h.window (quiet_swept hquiet)
  have htrips : s.guard.policy.trips (s.guard.policy.sinceReset key s.calls) now.toNat = true ↔
      s.guard.maxFailures ≤ (s.guard.counted ((s.guard.swept now).lookup key) now).failures :=
    hcounts.trips_iff
  refine ⟨hpolicy ▸ h.window, hpolicy ▸ h.failures, fun k => ?_, ?_⟩
  · dsimp only [Lockouts.calls]
    rw [hpolicy]
    simp only [LoginGuard.call, recordFailureAt_eq]
    rw [Table.lookup_insert_eq]
    by_cases hk : k = key
    · subst hk
      have hfailed := keeps_failed (h.swept hle k) h.window h.failures (quiet_swept hquiet) hquiet.2
      rw [if_pos rfl, List.map_cons, LockPolicy.sinceReset_failure, LockPolicy.lockEnd_failure]
      exact hfailed
    · have hkeeps := h.swept hle k
      simpa [Lockouts.calls, LockPolicy.sinceReset, LockPolicy.lockEnd, hk, Ne.symm hk] using hkeeps
  · intro later c answer earlier heq
    rw [hpolicy]
    refine h.rolling_cons ?_ later c answer earlier heq
    simp only [LoginGuard.call, recordFailureAt_eq, LockPolicy.Answers]
    by_cases ht : s.guard.policy.trips (s.guard.policy.sinceReset key s.calls) now.toNat = true
    · have hsum : (now + s.guard.lockoutSecs).toNat = now.toNat + s.guard.policy.lockout := by
        rw [UInt64.toNat_add]
        exact Nat.mod_eq_of_lt (hquiet.2 ht)
      rw [if_pos (htrips.mp ht), if_pos ht, Option.map_some, hsum]
    · rw [if_neg (mt htrips.mpr ht), if_neg ht, Option.map_none]

theorem success (h : s.Inv) (key : Text) :
    Inv { guard := (s.guard.call (.success key)).1
          clock := s.clock
          past := (.success key, (s.guard.call (.success key)).2) :: s.past } := by
  refine ⟨h.window, h.failures, fun k => ?_, h.rolling_cons trivial⟩
  have hlookup : (s.guard.recordSuccess key).attempts.lookup k =
      if k = key then none else s.guard.attempts.lookup k :=
    Table.lookup_erase_eq s.guard.attempts key k
  have hpolicy : (s.guard.recordSuccess key).policy = s.guard.policy := rfl
  dsimp only [Lockouts.calls, LoginGuard.call]
  rw [hlookup, hpolicy]
  by_cases hk : k = key
  · subst hk
    simpa [LockPolicy.sinceReset, LockPolicy.lockEnd] using LockPolicy.keeps_none _ s.clock
  · simpa [Lockouts.calls, LockPolicy.sinceReset, LockPolicy.lockEnd, hk, Ne.symm hk] using h.keeps k

theorem check (h : s.Inv) {key : Text} {now : UInt64} (hle : s.clock ≤ now) :
    Inv { guard := (s.guard.call (.check key now)).1
          clock := now
          past := (.check key now, (s.guard.call (.check key now)).2) :: s.past } := by
  refine ⟨h.window, h.failures, fun k => (h.keeps k).later hle, h.rolling_cons ?_⟩
  dsimp only [LoginGuard.call, LockPolicy.Answers]
  rw [checkAt_eq_false]
  exact (h.keeps key).locked now hle

end Lockouts.Inv

theorem LockoutStep.inv {s s' : Lockouts} {call : LoginCall} (hstep : LockoutStep s call s')
    (h : s.Inv) (hquiet : Quiet s call) : s'.Inv := by
  cases hstep with
  | call hle =>
    cases call with
    | failure key now => exact h.failure (hle now rfl) hquiet
    | success key => exact h.success key
    | check key now => exact h.check (hle now rfl)

/-- In every run that is quiet whenever a window starts afresh, every answer is that of a rolling
window. -/
theorem rolling_of_quiet {s : Lockouts} (h : lockoutSystem.Reach Quiet s) : s.Rolling := by
  have hstart : ∀ s, lockoutSystem.start s → s.Inv := by
    rintro s ⟨maxFailures, lockout, window, hw, rfl⟩
    refine ⟨hw, ?_, fun key => LockPolicy.keeps_none _ 0, fun later call answer earlier heq => ?_⟩
    · have hmax : (1 : UInt32) ≤ max maxFailures 1 := by
        change 1 ≤ if maxFailures ≤ 1 then (1 : UInt32) else maxFailures
        split
        next => exact UInt32.le_refl 1
        next h => exact UInt32.le_of_lt (UInt32.not_le.mp h)
      exact hmax
    · simp at heq
  exact (h.invariant hstart fun _ _ _ ih hok hstep => LockoutStep.inv hstep ih hok).rolling

/-- Failures at 0 and 5 of a limit of 2 in 10 seconds, and a check at 6. -/
theorem rolling_of_quiet_locked : ∃ s, lockoutSystem.Reach Quiet s ∧ s.Rolling ∧
    s.past.map Prod.snd = [.allowed false, .failed (some 65), .failed none] := by
  have h₀ : lockoutSystem.Reach Quiet { guard := (LoginGuard.new 2 60).withWindow 10 } :=
    .start ⟨2, 60, 10, by decide, rfl⟩
  have h₁ := h₀.step (e := LoginCall.failure ['a'] 0)
    ⟨fun _ t ht => (nomatch ht), fun _ => by decide⟩ (.call fun _ _ => UInt64.zero_le)
  have h₂ := h₁.step (e := LoginCall.failure ['a'] 5)
    ⟨fun helapsed => absurd (helapsed ⟨1, 0, 0⟩ (by decide +kernel)) (by decide), fun _ => by decide⟩
    (.call fun _ _ => UInt64.zero_le)
  have h₃ := h₂.step (e := LoginCall.check ['a'] 6) trivial (.call fun t ht => ?_)
  · exact ⟨_, h₃, rolling_of_quiet h₃, by decide +kernel⟩
  · cases ht
    decide

/-- Failures at 9, 11 and 12 are three within 10 seconds, but the window of a failure at 0 ends in
between. -/
theorem not_rolling : ¬ ∀ s, lockoutSystem.Reachable s → s.Rolling := by
  intro hall
  have h₀ : lockoutSystem.Reachable { guard := (LoginGuard.new 3 60).withWindow 10 } :=
    .start ⟨3, 60, 10, by decide, rfl⟩
  have h₁ := h₀.step (e := LoginCall.failure ['a'] 0) trivial (.call fun _ _ => UInt64.zero_le)
  have h₂ := h₁.step (e := LoginCall.failure ['a'] 9) trivial (.call fun _ _ => UInt64.zero_le)
  have h₃ := h₂.step (e := LoginCall.failure ['a'] 11) trivial (.call fun t ht => by cases ht; decide)
  have h₄ := h₃.step (e := LoginCall.failure ['a'] 12) trivial (.call fun t ht => by cases ht; decide)
  have hanswer : (none : Option Nat) =
      if LockPolicy.trips ⟨3, 10, 60⟩ [11, 9, 0] 12 then some 72 else none := hall _ h₄ [] _ _ _ rfl
  exact absurd hanswer (by decide)

end Kernway
