import Kernway.Runs
import Kernway.Utf8

namespace Kernway.Net

/-- The kinds of `io::Error` that the accept loop tells apart. -/
inductive ErrorKind
  | wouldBlock
  | interrupted
  | connectionAborted
  | connectionReset
  | permissionDenied
  | other (message : Text)
  deriving DecidableEq

def isTransientAcceptError : ErrorKind → Bool
  | .connectionAborted | .connectionReset | .permissionDenied => true
  | _ => false

/-- What the accept system call comes to, and the registration of the socket that it gives. -/
inductive AcceptOutcome (C : Type)
  | connection (c : C) (registered : Except ErrorKind Unit)
  | error (kind : ErrorKind)

/-- `waiting` is for the readiness of the listener or the shutdown. A shard returns how many
connections it has given up on. -/
inductive ShardPhase
  | accepting
  | waiting
  | draining (deadline : Nat)
  | returned (time : Nat) (result : Except ErrorKind Nat)

inductive LoopEnd
  | shutdown (time : Nat)
  | failed (time : Nat)
  deriving DecidableEq

/-- A shard, with the connections that the system has given it, those that it has handed to the
handler, and those whose tasks are running; the times are in milliseconds. -/
structure Shard (C : Type) where
  phase : ShardPhase := .accepting
  triggered : Bool := false
  clock : Nat := 0
  accepted : List C := []
  handed : List C := []
  running : List C := []
  ended : Option LoopEnd := none

namespace Shard

variable {C : Type} (s : Shard C)

/-- The error leaves the loop and the shard. -/
def fail (kind : ErrorKind) : Shard C :=
  { s with phase := .returned s.clock (.error kind), ended := some (.failed s.clock) }

/-- One turn of the loop in `AsyncTcpListener::accept`, and of the one in `shard_main` where it
gives a connection. -/
def accept : AcceptOutcome C → Shard C
  | .connection c (.ok _) =>
    { s with accepted := s.accepted ++ [c], handed := s.handed ++ [c], running := s.running ++ [c] }
  | .connection c (.error kind) => { s with accepted := s.accepted ++ [c] }.fail kind
  | .error kind =>
    if kind = .wouldBlock then { s with phase := .waiting }
    else if kind = .interrupted then s
    else if isTransientAcceptError kind then s
    else s.fail kind

/-- One turn of the loop in `drain`. -/
def drain (deadline : Nat) : Shard C :=
  if s.running = [] then { s with phase := .returned s.clock (.ok 0) }
  else if deadline ≤ s.clock then { s with phase := .returned s.clock (.ok s.running.length) }
  else s

end Shard

inductive ShardEvent (C : Type)
  | tick (time : Nat)
  | trigger
  | accept (outcome : AcceptOutcome C)
  | ready
  | stop
  | finish (c : C)
  | drain

/-- The shard with its listener, its connections' tasks, the clock and the signal. The signal is
looked at only while the listener has nothing. -/
inductive ShardStep {C : Type} (drainTimeout : Nat) : Shard C → ShardEvent C → Shard C → Prop
  | tick {s time} : s.clock ≤ time →
    ShardStep drainTimeout s (.tick time) { s with clock := time }
  | trigger {s} : ShardStep drainTimeout s .trigger { s with triggered := true }
  | accept {s outcome} : s.phase = .accepting →
    ShardStep drainTimeout s (.accept outcome) (s.accept outcome)
  | ready {s} : s.phase = .waiting →
    ShardStep drainTimeout s .ready { s with phase := .accepting }
  | stop {s} : s.phase = .waiting → s.triggered = true →
    ShardStep drainTimeout s .stop
      { s with phase := .draining (s.clock + drainTimeout), ended := some (.shutdown s.clock) }
  | finish {s c before after} : (∀ time result, s.phase ≠ .returned time result) →
    s.running = before ++ c :: after →
    ShardStep drainTimeout s (.finish c) { s with running := before ++ after }
  | drain {s deadline} : s.phase = .draining deadline →
    ShardStep drainTimeout s .drain (s.drain deadline)

def shardSystem (C : Type) (drainTimeout : Nat) : System (Shard C) (ShardEvent C) where
  start s := s = {}
  step := ShardStep drainTimeout

namespace Shard

variable {C : Type}

/-- The accept loop ends with the shutdown only, every connection is handed over once, and a shard
that returns has waited for its connections. -/
structure Serves (drainTimeout : Nat) (s : Shard C) : Prop where
  onlyShutdown : ∀ e, s.ended = some e → s.triggered = true ∧ ∃ time, e = .shutdown time
  once : s.handed = s.accepted
  drained : ∀ time result, s.phase = .returned time result → ∃ start, s.ended = some (.shutdown start) ∧
    (s.running = [] ∨ start + drainTimeout ≤ time)

end Shard

/-- The system call gives a connection whose socket is registered, or fails in one of the ways
that the loop goes on after. -/
def AcceptOutcome.Mild {C : Type} : AcceptOutcome C → Prop
  | .connection _ registered => registered = .ok ()
  | .error kind => kind = .wouldBlock ∨ kind = .interrupted ∨ isTransientAcceptError kind = true

/-- No accept takes the shard down. -/
def Mild {C : Type} (_ : Shard C) : ShardEvent C → Prop
  | .accept outcome => outcome.Mild
  | _ => True

section

variable {C : Type} {drainTimeout : Nat} {s s' : Shard C}

/-- What holds between the steps of a shard that nothing takes down. -/
structure Shard.Sound (drainTimeout : Nat) (s : Shard C) : Prop where
  serves : s.Serves drainTimeout
  looping : s.phase = .accepting ∨ s.phase = .waiting → s.ended = none
  draining : ∀ deadline, s.phase = .draining deadline →
    ∃ start, s.ended = some (.shutdown start) ∧ deadline = start + drainTimeout

theorem Shard.accept_mild (s : Shard C) {outcome : AcceptOutcome C} (h : outcome.Mild) :
    (∃ c, s.accept outcome = { s with
      accepted := s.accepted ++ [c], handed := s.handed ++ [c], running := s.running ++ [c] }) ∨
      s.accept outcome = { s with phase := .waiting } ∨ s.accept outcome = s := by
  cases outcome with
  | connection c registered =>
    have hok : registered = .ok () := h
    rw [hok]
    exact Or.inl ⟨c, rfl⟩
  | error kind =>
    right
    simp only [Shard.accept]
    by_cases hblock : kind = .wouldBlock
    · exact Or.inl (if_pos hblock)
    · right
      rw [if_neg hblock]
      by_cases hinterrupted : kind = .interrupted
      · exact if_pos hinterrupted
      · have htransient := (h.resolve_left hblock).resolve_left hinterrupted
        rw [if_neg hinterrupted, if_pos htransient]

theorem Shard.Sound.accept (h : s.Sound drainTimeout) (hphase : s.phase = .accepting)
    {outcome : AcceptOutcome C} (hmild : outcome.Mild) : (s.accept outcome).Sound drainTimeout := by
  have hended := h.looping (Or.inl hphase)
  rcases s.accept_mild hmild with ⟨c, heq⟩ | heq | heq
  · rw [heq]
    refine ⟨⟨h.serves.onlyShutdown, ?_, fun time result hreturned => ?_⟩, fun _ => hended, ?_⟩
    · exact congrArg (· ++ [c]) h.serves.once
    · cases hphase.symm.trans hreturned
    · intro deadline hdraining
      cases hphase.symm.trans hdraining
  · rw [heq]
    exact ⟨⟨h.serves.onlyShutdown, h.serves.once, fun _ _ hreturned => nomatch hreturned⟩,
      fun _ => hended, fun _ hdraining => nomatch hdraining⟩
  · rw [heq]
    exact h

theorem Shard.Sound.drain (h : s.Sound drainTimeout) {deadline : Nat}
    (hphase : s.phase = .draining deadline) : (s.drain deadline).Sound drainTimeout := by
  obtain ⟨start, hended, hdeadline⟩ := h.draining deadline hphase
  unfold Shard.drain
  split
  next hidle =>
    refine ⟨⟨h.serves.onlyShutdown, h.serves.once, fun _ _ _ => ⟨start, hended, Or.inl hidle⟩⟩,
      fun hloop => ?_, fun _ hdraining => nomatch hdraining⟩
    rcases hloop with hloop | hloop
    · cases hloop
    · cases hloop
  next =>
    split
    next hlate =>
      refine ⟨⟨h.serves.onlyShutdown, h.serves.once, fun time result hreturned => ?_⟩,
        fun hloop => ?_, fun _ hdraining => nomatch hdraining⟩
      · cases hreturned
        exact ⟨start, hended, Or.inr (hdeadline ▸ hlate)⟩
      · rcases hloop with hloop | hloop
        · cases hloop
        · cases hloop
    next => exact h

theorem ShardStep.sound {e : ShardEvent C} (h : s.Sound drainTimeout) (hok : Mild s e)
    (hstep : ShardStep drainTimeout s e s') : s'.Sound drainTimeout := by
  cases hstep with
  | tick hle => exact ⟨⟨h.serves.onlyShutdown, h.serves.once, h.serves.drained⟩, h.looping, h.draining⟩
  | trigger =>
    refine ⟨⟨fun e he => ⟨rfl, (h.serves.onlyShutdown e he).2⟩, h.serves.once, h.serves.drained⟩,
      h.looping, h.draining⟩
  | accept hphase => exact h.accept hphase hok
  | ready hphase =>
    exact ⟨⟨h.serves.onlyShutdown, h.serves.once, fun _ _ hreturned => nomatch hreturned⟩,
      fun _ => h.looping (Or.inr hphase), fun _ hdraining => nomatch hdraining⟩
  | stop hphase htriggered =>
    refine ⟨⟨fun e he => ?_, h.serves.once, fun _ _ hreturned => nomatch hreturned⟩, fun hloop => ?_,
      fun deadline hdraining => ?_⟩
    · cases he
      exact ⟨htriggered, _, rfl⟩
    · rcases hloop with hloop | hloop
      · cases hloop
      · cases hloop
    · cases hdraining
      exact ⟨_, rfl, rfl⟩
  | finish hphase hrunning =>
    exact ⟨⟨h.serves.onlyShutdown, h.serves.once, fun time result hreturned =>
      absurd hreturned (hphase time result)⟩, h.looping, h.draining⟩
  | drain hphase => exact h.drain hphase

/-- In every run in which no accept takes the shard down, it serves until the shutdown. -/
theorem serves_of_mild (h : (shardSystem C drainTimeout).Reach Mild s) : s.Serves drainTimeout := by
  have hstart : ∀ s, (shardSystem C drainTimeout).start s → s.Sound drainTimeout := by
    rintro s rfl
    exact ⟨⟨fun _ he => (nomatch he), rfl, fun _ _ hreturned => nomatch hreturned⟩, fun _ => rfl,
      fun _ hdraining => nomatch hdraining⟩
  have hsound := h.invariant hstart fun s e s' hs hok hstep => ShardStep.sound hs hok hstep
  exact hsound.serves

/-- A connection, the shutdown, and a drain up to its deadline. -/
theorem serves_of_mild_drained : ∃ s : Shard Nat, (shardSystem Nat 10).Reach Mild s ∧
    s.phase = .returned 10 (.ok 1) ∧ s.Serves 10 := by
  have h₀ : (shardSystem Nat 10).Reach Mild {} := .start rfl
  have h₁ := h₀.step (e := ShardEvent.accept (.connection 1 (.ok ()))) rfl (ShardStep.accept rfl)
  have h₂ := h₁.step (e := ShardEvent.accept (.error .wouldBlock)) (Or.inl rfl) (ShardStep.accept rfl)
  have h₃ := h₂.step (e := ShardEvent.trigger) trivial ShardStep.trigger
  have h₄ := h₃.step (e := ShardEvent.stop) trivial (ShardStep.stop rfl rfl)
  have h₅ := h₄.step (e := ShardEvent.tick 10) trivial (ShardStep.tick (Nat.zero_le _))
  have h₆ := h₅.step (e := ShardEvent.drain) trivial (ShardStep.drain rfl)
  exact ⟨_, h₆, rfl, serves_of_mild h₆⟩

/-- The process runs out of file descriptors while a connection is served. -/
theorem not_serves : ¬ ∀ s : Shard Nat, (shardSystem Nat 10).Reachable s → s.Serves 10 := by
  intro hall
  have h₀ : (shardSystem Nat 10).Reachable {} := .start rfl
  have h₁ := h₀.step (e := ShardEvent.accept (.connection 1 (.ok ()))) trivial (ShardStep.accept rfl)
  have h₂ := h₁.step (e := ShardEvent.accept (.error (.other "Too many open files".toList))) trivial
    (ShardStep.accept rfl)
  obtain ⟨-, time, hshutdown⟩ := (hall _ h₂).onlyShutdown (.failed 0) rfl
  cases hshutdown

end

end Kernway.Net
