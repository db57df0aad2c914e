import Kernway.Runs
import Mathlib.Logic.Function.Basic

namespace Kernway.Executor

/-- The future of `block_on`, whose id no slot has, and the spawned tasks by their slots. -/
inductive TaskId
  | main
  | task (slot : Nat)
  deriving DecidableEq

inductive Mode
  | blockOn
  | run
  deriving DecidableEq

/-- Where the thread of `block_on` or `run` is: before the step that the name says. The busy point
is before `poll_io_periodic`; `blocked` is inside the reactor's poll. -/
inductive Point
  | take
  | pollMain
  | drain
  | polling
  | check
  | checkReady
  | busy
  | park
  | parkCheck
  | blocked
  | unpark
  | finished

/-- The head of the loop. -/
def Mode.loop : Mode → Point
  | blockOn => .take
  | run => .drain

/-- How far a call of `schedule` is: its id is marked or queued; it has taken the parked flag down
and is about to unpark the reactor. A call is fresh as long as no poll of its id has begun since. -/
inductive Call
  | stored (id : TaskId) (fresh : Bool)
  | unparking (id : TaskId) (fresh : Bool)

/-- A poll of the id begins. -/
def Call.polled (polled : TaskId) : Call → Call
  | stored id fresh => stored id (fresh && id ≠ polled)
  | unparking id fresh => unparking id (fresh && id ≠ polled)

/-- The shared variables, the executor's thread with its buffer, and the calls of `schedule` under
way. What is owed are the ids whose `schedule` has completed since their last poll began. -/
structure State where
  point : Point
  ready : List Nat
  buf : List Nat
  parked : Bool
  mainWoken : Bool
  unparkPending : Bool
  calls : Nat → Option Call
  owed : TaskId → Bool

namespace State

def polled (s : State) (id : TaskId) : State :=
  { s with
    calls := fun t => (s.calls t).map (Call.polled id)
    owed := Function.update s.owed id false }

/-- The first step of `schedule`. -/
def store (s : State) (t : Nat) : TaskId → State
  | .main => { s with mainWoken := true, calls := Function.update s.calls t (some (.stored .main true)) }
  | .task slot =>
    { s with
      ready := s.ready ++ [slot]
      calls := Function.update s.calls t (some (.stored (.task slot) true)) }

/-- A call of `schedule` completes. -/
def complete (s : State) (t : Nat) (id : TaskId) (fresh : Bool) : State :=
  { s with
    calls := Function.update s.calls t none
    owed := if fresh then Function.update s.owed id true else s.owed }

end State

inductive Event
  | executor
  | store (t : Nat) (id : TaskId)
  | swap (t : Nat)
  | wake (t : Nat)

/-- The atomic operations of both sides. The reactor's poll may consume a pending unpark, and ends
for other reasons too; an error of it ends the loop. -/
inductive Step (mode : Mode) : State → Event → State → Prop
  | take {s : State} : s.point = .take →
    Step mode s .executor { s with point := .pollMain, mainWoken := false }
  | mainReady {s : State} : s.point = .pollMain →
    Step mode s .executor { s.polled .main with point := .finished }
  | mainPending {s : State} : s.point = .pollMain →
    Step mode s .executor { s.polled .main with point := .drain }
  | drain {s : State} : s.point = .drain →
    Step mode s .executor { s with point := .polling, buf := s.buf ++ s.ready, ready := [] }
  | pollTask {s : State} {slot : Nat} {rest : List Nat} : s.point = .polling →
    s.buf = slot :: rest → Step mode s .executor { s.polled (.task slot) with buf := rest }
  | drained {s : State} : s.point = .polling → s.buf = [] → mode = .blockOn →
    Step mode s .executor { s with point := .check }
  | noTasks {s : State} : s.point = .polling → s.buf = [] → mode = .run →
    Step mode s .executor { s with point := .finished }
  | someTasks {s : State} : s.point = .polling → s.buf = [] → mode = .run →
    Step mode s .executor { s with point := .checkReady }
  | checkSet {s : State} : s.point = .check → s.mainWoken = true →
    Step mode s .executor { s with point := .busy, mainWoken := false }
  | checkUnset {s : State} : s.point = .check → s.mainWoken = false →
    Step mode s .executor { s with point := .checkReady }
  | someReady {s : State} : s.point = .checkReady → s.ready ≠ [] →
    Step mode s .executor { s with point := .busy }
  | noneReady {s : State} : s.point = .checkReady → s.ready = [] →
    Step mode s .executor { s with point := .park }
  | busy {s : State} {pending : Bool} : s.point = .busy →
    Step mode s .executor { s with point := mode.loop, unparkPending := s.unparkPending && pending }
  | busyFails {s : State} : s.point = .busy → Step mode s .executor { s with point := .finished }
  | park {s : State} : s.point = .park →
    Step mode s .executor { s with point := .parkCheck, parked := true }
  | parkReady {s : State} : s.point = .parkCheck → s.ready ≠ [] →
    Step mode s .executor { s with point := .unpark }
  | parkBlocks {s : State} : s.point = .parkCheck → s.ready = [] →
    Step mode s .executor { s with point := .blocked }
  | wakes {s : State} {pending : Bool} : s.point = .blocked →
    Step mode s .executor { s with point := .unpark, unparkPending := s.unparkPending && pending }
  | unpark {s : State} : s.point = .unpark →
    Step mode s .executor { s with point := mode.loop, parked := false }
  | unparkFails {s : State} : s.point = .unpark →
    Step mode s .executor { s with point := .finished, parked := false }
  | store {s : State} {t : Nat} {id : TaskId} : s.calls t = none →
    Step mode s (.store t id) (s.store t id)
  | swapParked {s : State} {t : Nat} {id : TaskId} {fresh : Bool} :
    s.calls t = some (.stored id fresh) → s.parked = true →
    Step mode s (.swap t)
      { s with parked := false, calls := Function.update s.calls t (some (.unparking id fresh)) }
  | swapAwake {s : State} {t : Nat} {id : TaskId} {fresh : Bool} :
    s.calls t = some (.stored id fresh) → s.parked = false →
    Step mode s (.swap t) (s.complete t id fresh)
  | wake {s : State} {t : Nat} {id : TaskId} {fresh : Bool} :
    s.calls t = some (.unparking id fresh) →
    Step mode s (.wake t) { s.complete t id fresh with unparkPending := true }

/-- A call of `block_on` or `run` begins: what was scheduled before for a task is still queued. -/
structure Starts (mode : Mode) (s : State) : Prop where
  point : s.point = mode.loop
  buf : s.buf = []
  parked : s.parked = false
  calls : ∀ t, s.calls t = none
  owed : ∀ slot, s.owed (.task slot) = true → slot ∈ s.ready

def system (mode : Mode) : System State Event := ⟨Starts mode, Step mode⟩

namespace State

/-- A thread that has taken the parked flag down is about to unpark the reactor. -/
def AboutToUnpark (s : State) : Prop := ∃ t id fresh, s.calls t = some (.unparking id fresh)

/-- Nobody who was scheduled since the last poll is forgotten while the executor sleeps: an unpark
is pending or about to be sent, and a task is queued. -/
def Wakes (mode : Mode) (s : State) : Prop :=
  s.point = .blocked → ∀ id, s.owed id = true → (id = .main → mode = .blockOn) →
    (s.unparkPending = true ∨ s.AboutToUnpark) ∧ ∀ slot, id = .task slot → slot ∈ s.ready

/-- No fresh call for the main future looks at the parked flag between `block_on`'s check of the
main flag and the publication of the parked one. -/
def Careful (mode : Mode) (s : State) : Event → Prop
  | .swap t => mode = .blockOn → s.calls t = some (.stored .main true) →
    s.point ≠ .checkReady ∧ s.point ≠ .park
  | _ => True

/-- A fresh call of the id is under way, or one has completed. -/
def Due (s : State) (id : TaskId) : Prop :=
  s.owed id = true ∨ ∃ t, s.calls t = some (.stored id true) ∨ s.calls t = some (.unparking id true)

/-- A fresh call of the id has looked at the parked flag. -/
def Flagged (s : State) (id : TaskId) : Prop :=
  s.owed id = true ∨ ∃ t, s.calls t = some (.unparking id true)

theorem Flagged.due {s : State} {id : TaskId} (h : s.Flagged id) : s.Due id :=
  h.imp_right fun ⟨t, ht⟩ => ⟨t, .inr ht⟩

theorem calls_polled {s : State} {id id' : TaskId} {t : Nat} {stage : TaskId → Bool → Call}
    (hstage : stage = .stored ∨ stage = .unparking)
    (h : (s.polled id).calls t = some (stage id' true)) :
    id' ≠ id ∧ s.calls t = some (stage id' true) := by
  obtain ⟨call, hcall, heq⟩ := Option.map_eq_some_iff.mp h
  rcases hstage with rfl | rfl <;> cases call <;> simp only [Call.polled, Call.stored.injEq,
    Call.unparking.injEq, Bool.and_eq_true, decide_eq_true_eq, reduceCtorEq] at heq
  · obtain ⟨rfl, rfl, hne⟩ := heq
    exact ⟨hne, hcall⟩
  · obtain ⟨rfl, rfl, hne⟩ := heq
    exact ⟨hne, hcall⟩

theorem owed_polled {s : State} {id id' : TaskId} (h : (s.polled id).owed id' = true) :
    id' ≠ id ∧ s.owed id' = true := by
  have howed : Function.update s.owed id false id' = true := h
  by_cases hid : id' = id
  · rw [hid, Function.update_self] at howed
    cases howed
  · rw [Function.update_of_ne hid] at howed
    exact ⟨hid, howed⟩

/-- The poll of an id settles what is due for it. -/
theorem due_polled (s : State) (id id' : TaskId) (h : (s.polled id).Due id') :
    id' ≠ id ∧ s.Due id' := by
  rcases h with h | ⟨t, h | h⟩
  · exact ⟨(owed_polled h).1, .inl (owed_polled h).2⟩
  · obtain ⟨hne, hcall⟩ := calls_polled (.inl rfl) h
    exact ⟨hne, .inr ⟨t, .inl hcall⟩⟩
  · obtain ⟨hne, hcall⟩ := calls_polled (.inr rfl) h
    exact ⟨hne, .inr ⟨t, .inr hcall⟩⟩

theorem aboutToUnpark_polled {s : State} {id : TaskId} (h : s.AboutToUnpark) :
    (s.polled id).AboutToUnpark := by
  obtain ⟨t, id', fresh, ht⟩ := h
  refine ⟨t, id', fresh && id' ≠ id, ?_⟩
  show (s.calls t).map (Call.polled id) = _
  rw [ht]
  rfl

end State

namespace Point

/-- Between the poll of the main future and the check of its flag. -/
def Tending : Point → Prop
  | drain | polling | check => True
  | _ => False

/-- Between that check and the publication of the parked flag. -/
def InWindow : Point → Prop
  | checkReady | park => True
  | _ => False

/-- From the publication of the parked flag to the end of the reactor's poll. -/
def Published : Point → Prop
  | parkCheck | blocked => True
  | _ => False

end Point

namespace State

variable {mode : Mode}

/-- What holds in every careful run. -/
structure Inv (mode : Mode) (s : State) : Prop where
  buffer : s.point ≠ .polling → s.buf = []
  queued : ∀ slot, s.Due (.task slot) → slot ∈ s.ready ∨ slot ∈ s.buf
  marked : mode = .blockOn → s.point.Tending → s.Due .main → s.mainWoken = true
  unseen : mode = .blockOn → s.point.InWindow → ¬ s.Flagged .main
  signalled : s.point.Published → s.parked = false → s.unparkPending = true ∨ s.AboutToUnpark
  quiet : mode = .blockOn → s.point.Published → s.parked = true → ¬ s.Flagged .main
  asleep : s.point = .blocked → s.parked = true → ∀ slot, ¬ s.Flagged (.task slot)

theorem Inv.wakes {s : State} (h : s.Inv mode) : s.Wakes mode := by
  intro hpoint id howed hlive
  have hbuf : s.buf = [] := h.buffer (by rw [hpoint]; nofun)
  have hpublished : s.point.Published := by rw [hpoint]; trivial
  have hparked : s.parked = false := by
    by_contra hparked
    rw [Bool.not_eq_false] at hparked
    cases id with
    | main => exact h.quiet (hlive rfl) hpublished hparked (.inl howed)
    | task slot => exact h.asleep hpoint hparked slot (.inl howed)
  refine ⟨h.signalled hpublished hparked, ?_⟩
  rintro slot rfl
  rcases h.queued slot (.inl howed) with hready | hmem
  · exact hready
  · rw [hbuf] at hmem
    cases hmem

/-- At the points where neither the main flag nor the parked one counts, only the tasks are looked
after. -/
theorem Inv.of_free {s : State} (hbuffer : s.buf = [])
    (hqueued : ∀ slot, s.Due (.task slot) → slot ∈ s.ready)
    (hmain : mode = .blockOn → ¬ s.point.Tending ∧ ¬ s.point.InWindow)
    (hpublished : ¬ s.point.Published) : s.Inv mode where
  buffer _ := hbuffer
  queued slot hdue := .inl (hqueued slot hdue)
  marked hmode htending := absurd htending (hmain hmode).1
  unseen hmode hwindow := absurd hwindow (hmain hmode).2
  signalled hpub := absurd hpub hpublished
  quiet _ hpub := absurd hpub hpublished
  asleep hpoint := absurd (by rw [hpoint]; trivial) hpublished

theorem Inv.ready_of_due {s : State} (h : s.Inv mode) (hbuf : s.buf = []) (slot : Nat)
    (hdue : s.Due (.task slot)) : slot ∈ s.ready := by
  rcases h.queued slot hdue with hready | hmem
  · exact hready
  · rw [hbuf] at hmem
    cases hmem

theorem loop_free : mode = .blockOn → ¬ mode.loop.Tending ∧ ¬ mode.loop.InWindow := by
  rintro rfl
  exact ⟨id, id⟩

theorem loop_unpublished : ¬ mode.loop.Published := by
  cases mode <;> exact id

theorem inv_of_starts {s : State} (h : Starts mode s) : s.Inv mode := by
  refine .of_free h.buf (fun slot hdue => ?_) (h.point ▸ loop_free) (h.point ▸ loop_unpublished)
  rcases hdue with howed | ⟨t, ht | ht⟩
  · exact h.owed slot howed
  · rw [h.calls t] at ht
    cases ht
  · rw [h.calls t] at ht
    cases ht

/-- The steps of the executor's own thread. -/
theorem Inv.executor {s s' : State} (h : s.Inv mode) (hstep : Step mode s .executor s') :
    s'.Inv mode := by
  have hempty : ∀ {p : Point}, s.point = p → p ≠ .polling → s.buf = [] := fun hp hne =>
    h.buffer (hp ▸ hne)
  cases hstep with
  | take hp =>
    have hbuf := hempty hp nofun
    exact .of_free hbuf (h.ready_of_due hbuf) (fun _ => ⟨id, id⟩) id
  | mainReady hp =>
    have hbuf := hempty hp nofun
    exact .of_free hbuf (fun slot hdue => h.ready_of_due hbuf slot (due_polled s .main (.task slot) hdue).2)
      (fun _ => ⟨id, id⟩) id
  | mainPending hp =>
    have hbuf := hempty hp nofun
    exact ⟨fun _ => hbuf, fun slot hdue => h.queued slot (due_polled s .main (.task slot) hdue).2,
      fun _ _ hdue => absurd rfl (due_polled s .main .main hdue).1, nofun, nofun, nofun, nofun⟩
  | drain hp =>
    have hbuf := hempty hp nofun
    have hmarked := h.marked
    rw [hp] at hmarked
    exact ⟨fun hpoint => absurd rfl hpoint,
      fun slot hdue => .inr (List.mem_append_right _ (h.ready_of_due hbuf slot hdue)),
      fun hmode _ => hmarked hmode trivial, nofun, nofun, nofun, nofun⟩
  | @pollTask slot rest hp hbuf =>
    have hmarked := h.marked
    have hnot : ¬ s.point.InWindow ∧ ¬ s.point.Published ∧ s.point ≠ .blocked := by
      rw [hp]
      exact ⟨id, id, nofun⟩
    rw [hp] at hmarked
    refine ⟨fun hpoint => absurd hp hpoint, fun slot' hdue => ?_, fun hmode _ hdue => ?_,
      fun _ hw => absurd hw hnot.1, fun hpub => absurd hpub hnot.2.1,
      fun _ hpub => absurd hpub hnot.2.1, fun hblocked => absurd hblocked hnot.2.2⟩
    · obtain ⟨hne, hdue⟩ := due_polled s (.task slot) (.task slot') hdue
      rcases h.queued slot' hdue with hready | hmem
      · exact .inl hready
      · rw [hbuf] at hmem
        exact .inr ((List.mem_cons.mp hmem).resolve_left fun heq => hne (by rw [heq]))
    · exact hmarked hmode trivial (due_polled s (.task slot) .main hdue).2
  | drained hp hbuf hmode =>
    have hmarked := h.marked
    rw [hp] at hmarked
    exact ⟨fun _ => hbuf, h.queued, fun hmode _ => hmarked hmode trivial, nofun, nofun, nofun, nofun⟩
  | noTasks hp hbuf _ => exact .of_free hbuf (h.ready_of_due hbuf) (fun _ => ⟨id, id⟩) id
  | someTasks hp hbuf hmode =>
    have hrun : mode ≠ .blockOn := by rw [hmode]; nofun
    exact ⟨fun _ => hbuf, h.queued, nofun, fun hm => absurd hm hrun, nofun, nofun, nofun⟩
  | checkSet hp _ =>
    have hbuf := hempty hp nofun
    exact .of_free hbuf (h.ready_of_due hbuf) (fun _ => ⟨id, id⟩) id
  | checkUnset hp hunset =>
    have hmarked := h.marked
    rw [hp, hunset] at hmarked
    refine ⟨fun _ => hempty hp nofun, h.queued, nofun, fun hmode _ hflagged => ?_, nofun, nofun,
      nofun⟩
    -- a fresh call before the check would have left its mark
    cases hmarked hmode trivial hflagged.due
  | someReady hp _ =>
    have hbuf := hempty hp nofun
    exact .of_free hbuf (h.ready_of_due hbuf) (fun _ => ⟨id, id⟩) id
  | noneReady hp _ =>
    have hunseen := h.unseen
    rw [hp] at hunseen
    exact ⟨fun _ => hempty hp nofun, h.queued, nofun, fun hmode _ => hunseen hmode trivial, nofun,
      nofun, nofun⟩
  | busy hp =>
    have hbuf := hempty hp nofun
    exact .of_free hbuf (h.ready_of_due hbuf) loop_free loop_unpublished
  | busyFails hp =>
    have hbuf := hempty hp nofun
    exact .of_free hbuf (h.ready_of_due hbuf) (fun _ => ⟨id, id⟩) id
  | park hp =>
    have hunseen := h.unseen
    rw [hp] at hunseen
    exact ⟨fun _ => hempty hp nofun, h.queued, nofun, nofun, nofun,
      fun hmode _ _ => hunseen hmode trivial, nofun⟩
  | parkReady hp _ =>
    have hbuf := hempty hp nofun
    exact .of_free hbuf (h.ready_of_due hbuf) (fun _ => ⟨id, id⟩) id
  | parkBlocks hp hnone =>
    have hbuf := hempty hp nofun
    have hsignalled := h.signalled
    have hquiet := h.quiet
    rw [hp] at hsignalled hquiet
    refine ⟨fun _ => hbuf, h.queued, nofun, nofun, fun _ => hsignalled trivial,
      fun hmode _ => hquiet hmode trivial, fun _ _ slot hflagged => ?_⟩
    have hready := h.ready_of_due hbuf slot hflagged.due
    rw [hnone] at hready
    cases hready
  | wakes hp =>
    have hbuf := hempty hp nofun
    exact .of_free hbuf (h.ready_of_due hbuf) (fun _ => ⟨id, id⟩) id
  | unpark hp =>
    have hbuf := hempty hp nofun
    exact .of_free hbuf (h.ready_of_due hbuf) loop_free loop_unpublished
  | unparkFails hp =>
    have hbuf := hempty hp nofun
    exact .of_free hbuf (h.ready_of_due hbuf) (fun _ => ⟨id, id⟩) id

theorem calls_cases {s s' : State} {t u : Nat} {new : Option Call} {call : Call}
    (hcalls : s'.calls = Function.update s.calls t new) (h : s'.calls u = some call) :
    new = some call ∨ u ≠ t ∧ s.calls u = some call := by
  rw [hcalls] at h
  by_cases hu : u = t
  · subst hu
    rw [Function.update_self] at h
    exact .inl h
  · rw [Function.update_of_ne hu] at h
    exact .inr ⟨hu, h⟩

theorem aboutToUnpark_of_calls {s s' : State} {t : Nat} {new : Option Call} (h : s.AboutToUnpark)
    (hcalls : s'.calls = Function.update s.calls t new)
    (ht : ∀ id fresh, s.calls t ≠ some (.unparking id fresh)) : s'.AboutToUnpark := by
  obtain ⟨u, id, fresh, hu⟩ := h
  have hne : u ≠ t := by
    rintro rfl
    exact ht id fresh hu
  exact ⟨u, id, fresh, by rw [hcalls, Function.update_of_ne hne, hu]⟩

theorem store_owed (s : State) (t : Nat) (id : TaskId) : (s.store t id).owed = s.owed := by
  cases id <;> rfl

theorem store_calls (s : State) (t : Nat) (id : TaskId) :
    (s.store t id).calls = Function.update s.calls t (some (.stored id true)) := by
  cases id <;> rfl

theorem due_store {s : State} {t : Nat} {id id' : TaskId} (h : (s.store t id).Due id') :
    id' = id ∨ s.Due id' := by
  rcases h with h | ⟨u, h | h⟩
  · rw [store_owed] at h
    exact .inr (.inl h)
  · rcases calls_cases (store_calls s t id) h with heq | ⟨-, hu⟩
    · cases heq
      exact .inl rfl
    · exact .inr (.inr ⟨u, .inl hu⟩)
  · rcases calls_cases (store_calls s t id) h with heq | ⟨-, hu⟩
    · cases heq
    · exact .inr (.inr ⟨u, .inr hu⟩)

theorem flagged_store {s : State} {t : Nat} {id id' : TaskId} (h : (s.store t id).Flagged id') :
    s.Flagged id' := by
  rcases h with h | ⟨u, h⟩
  · rw [store_owed] at h
    exact .inl h
  · rcases calls_cases (store_calls s t id) h with heq | ⟨-, hu⟩
    · cases heq
    · exact .inr ⟨u, hu⟩

/-- A step of a call past its first one: what is due stays so, and what is flagged is so already or
is its own id. -/
structure Advances (s s' : State) (t : Nat) (id : TaskId) (fresh : Bool) : Prop where
  due : ∀ id', s'.Due id' → s.Due id'
  flagged : ∀ id', s'.Flagged id' →
    s.Flagged id' ∨ s.calls t = some (.stored id fresh) ∧ fresh = true ∧ id' = id

theorem complete_advances {s : State} {t : Nat} {id : TaskId} {fresh : Bool}
    (h : s.calls t = some (.stored id fresh) ∨ s.calls t = some (.unparking id fresh)) :
    Advances s (s.complete t id fresh) t id fresh := by
  have hown : fresh = true → s.Due id := by
    rintro rfl
    exact .inr ⟨t, h⟩
  have howed : ∀ id', (s.complete t id fresh).owed id' = true →
      s.owed id' = true ∨ fresh = true ∧ id' = id := by
    intro id' hid'
    cases fresh with
    | false => exact .inl hid'
    | true =>
      have hupdate : Function.update s.owed id true id' = true := hid'
      by_cases heq : id' = id
      · exact .inr ⟨rfl, heq⟩
      · rw [Function.update_of_ne heq] at hupdate
        exact .inl hupdate
  refine ⟨fun id' hdue => ?_, fun id' hflagged => ?_⟩
  · rcases hdue with hid' | ⟨u, hu | hu⟩
    · rcases howed id' hid' with hid' | ⟨hfresh, rfl⟩
      · exact .inl hid'
      · exact hown hfresh
    · rcases calls_cases (t := t) rfl hu with heq | ⟨-, hu⟩
      · cases heq
      · exact .inr ⟨u, .inl hu⟩
    · rcases calls_cases (t := t) rfl hu with heq | ⟨-, hu⟩
      · cases heq
      · exact .inr ⟨u, .inr hu⟩
  · rcases hflagged with hid' | ⟨u, hu⟩
    · rcases howed id' hid' with hid' | ⟨rfl, rfl⟩
      · exact .inl (.inl hid')
      · rcases h with h | h
        · exact .inr ⟨h, rfl, rfl⟩
        · exact .inl (.inr ⟨t, h⟩)
    · rcases calls_cases (t := t) rfl hu with heq | ⟨-, hu⟩
      · cases heq
      · exact .inl (.inr ⟨u, hu⟩)

theorem swapParked_advances {s s' : State} {t : Nat} {id : TaskId} {fresh : Bool}
    (h : s.calls t = some (.stored id fresh)) (howed : s'.owed = s.owed)
    (hcalls : s'.calls = Function.update s.calls t (some (.unparking id fresh))) :
    Advances s s' t id fresh := by
  refine ⟨fun id' hdue => ?_, fun id' hflagged => ?_⟩
  · rcases hdue with hid' | ⟨u, hu | hu⟩
    · exact .inl (howed ▸ hid')
    · rcases calls_cases hcalls hu with heq | ⟨-, hu⟩
      · cases heq
      · exact .inr ⟨u, .inl hu⟩
    · rcases calls_cases hcalls hu with heq | ⟨-, hu⟩
      · cases heq
        exact .inr ⟨t, .inl h⟩
      · exact .inr ⟨u, .inr hu⟩
  · rcases hflagged with hid' | ⟨u, hu⟩
    · exact .inl (.inl (howed ▸ hid'))
    · rcases calls_cases hcalls hu with heq | ⟨-, hu⟩
      · cases heq
        exact .inr ⟨h, rfl, rfl⟩
      · exact .inl (.inr ⟨u, hu⟩)

/-- A careful swap flags nothing for the main future inside the window. -/
theorem Inv.unseen_of_advances {s s' : State} {t : Nat} {id : TaskId} {fresh : Bool}
    (h : s.Inv mode) (hadv : Advances s s' t id fresh) (hok : s.Careful mode (.swap t))
    (hmode : mode = .blockOn) (hwindow : s.point.InWindow) : ¬ s'.Flagged .main := by
  intro hflagged
  rcases hadv.flagged .main hflagged with hflagged | ⟨hcall, rfl, rfl⟩
  · exact h.unseen hmode hwindow hflagged
  · obtain ⟨hcheck, hpark⟩ := hok hmode hcall
    cases hp : s.point with
    | checkReady => exact hcheck hp
    | park => exact hpark hp
    | _ =>
      rw [hp] at hwindow
      exact hwindow

/-- The steps of the threads that call `schedule`. -/
theorem Inv.schedule {s s' : State} {e : Event} (h : s.Inv mode) (hok : s.Careful mode e)
    (hstep : Step mode s e s') (he : e ≠ .executor) : s'.Inv mode := by
  cases hstep with
  | @store t id hnone =>
    have hunpark := fun hpub hparked => (h.signalled hpub hparked).imp_right fun hsoon =>
      aboutToUnpark_of_calls hsoon (store_calls s t id) (by rw [hnone]; nofun)
    cases id with
    | main =>
      refine ⟨h.buffer, fun slot hdue => ?_, fun _ _ _ => rfl,
        fun hm hw hf => h.unseen hm hw (flagged_store hf), hunpark,
        fun hm hpub hp hf => h.quiet hm hpub hp (flagged_store hf),
        fun hb hp slot hf => h.asleep hb hp slot (flagged_store hf)⟩
      exact h.queued slot ((due_store hdue).resolve_left nofun)
    | task n =>
      refine ⟨h.buffer, fun slot hdue => ?_,
        fun hm ht hdue => h.marked hm ht ((due_store hdue).resolve_left nofun),
        fun hm hw hf => h.unseen hm hw (flagged_store hf), hunpark,
        fun hm hpub hp hf => h.quiet hm hpub hp (flagged_store hf),
        fun hb hp slot hf => h.asleep hb hp slot (flagged_store hf)⟩
      rcases due_store hdue with heq | hdue
      · cases heq
        exact .inl (List.mem_append_right _ (List.mem_singleton.mpr rfl))
      · exact (h.queued slot hdue).imp_left (List.mem_append_left _)
  | @swapParked t id fresh hcall hparked =>
    let swapped : State :=
      { s with parked := false, calls := Function.update s.calls t (some (.unparking id fresh)) }
    have hadv : Advances s swapped t id fresh := swapParked_advances hcall rfl rfl
    exact ⟨h.buffer, fun slot hdue => h.queued slot (hadv.due _ hdue),
      fun hm ht hdue => h.marked hm ht (hadv.due _ hdue),
      fun hm hw => h.unseen_of_advances hadv hok hm hw,
      fun _ _ => .inr ⟨t, id, fresh, Function.update_self ..⟩, nofun, nofun⟩
  | @swapAwake t id fresh hcall hparked =>
    have hadv := complete_advances (.inl hcall)
    have hawake : s.parked ≠ true := by rw [hparked]; nofun
    exact ⟨h.buffer, fun slot hdue => h.queued slot (hadv.due _ hdue),
      fun hm ht hdue => h.marked hm ht (hadv.due _ hdue),
      fun hm hw => h.unseen_of_advances hadv hok hm hw,
      fun hpub hp => (h.signalled hpub hp).imp_right fun hsoon =>
        aboutToUnpark_of_calls (t := t) hsoon rfl (by rw [hcall]; nofun),
      fun _ _ hp => absurd hp hawake, fun _ hp => absurd hp hawake⟩
  | @wake t id fresh hcall =>
    have hadv := complete_advances (.inr hcall)
    have hflagged : ∀ id', (s.complete t id fresh).Flagged id' → s.Flagged id' := fun id' hf =>
      (hadv.flagged id' hf).resolve_right fun ⟨hstored, _⟩ => by
        rw [hcall] at hstored
        cases hstored
    exact ⟨h.buffer, fun slot hdue => h.queued slot (hadv.due _ hdue),
      fun hm ht hdue => h.marked hm ht (hadv.due _ hdue),
      fun hm hw hf => h.unseen hm hw (hflagged _ hf), fun _ _ => .inl rfl,
      fun hm hpub hp hf => h.quiet hm hpub hp (hflagged _ hf),
      fun hb hp slot hf => h.asleep hb hp slot (hflagged _ hf)⟩
  | _ => exact absurd rfl he

theorem Inv.step {s s' : State} {e : Event} (h : s.Inv mode) (hok : s.Careful mode e)
    (hstep : Step mode s e s') : s'.Inv mode := by
  cases e with
  | executor => exact h.executor hstep
  | store => exact h.schedule hok hstep nofun
  | swap => exact h.schedule hok hstep nofun
  | wake => exact h.schedule hok hstep nofun

/-- In every run in which no fresh call for the main future looks at the parked flag in the window,
nobody who was scheduled is forgotten while the executor sleeps. -/
theorem reach_wakes {mode : Mode} {s : State} (h : (system mode).Reach (Careful mode) s) :
    s.Wakes mode := by
  have hinv : s.Inv mode := @System.Reach.invariant _ _ _ _ (Inv mode)
    (fun _ hstart => inv_of_starts hstart) (fun _ _ _ hinv hok hstep => hinv.step hok hstep) _ h
  exact hinv.wakes

/-- Before `block_on` or `run`, with nothing scheduled. -/
def fresh (mode : Mode) : State where
  point := mode.loop
  ready := []
  buf := []
  parked := false
  mainWoken := false
  unparkPending := false
  calls _ := none
  owed _ := false

theorem starts_fresh (mode : Mode) : Starts mode (fresh mode) :=
  ⟨rfl, rfl, rfl, fun _ => rfl, nofun⟩

/-- `block_on` polls its future, finds nothing to do, and is about to look for ready tasks. -/
theorem reach_window (ok : State → Event → Prop)
    (hok : ∀ s, ok s .executor) : (system .blockOn).Reach ok
      { (fresh .blockOn).polled .main with point := .checkReady } := by
  have h₀ : (system .blockOn).Reach ok (fresh .blockOn) := .start (starts_fresh _)
  have h₁ := h₀.step (hok _) (.take rfl)
  have h₂ := h₁.step (hok _) (.mainPending rfl)
  have h₃ := h₂.step (hok _) (.drain rfl)
  have h₄ := h₃.step (hok _) (.drained rfl rfl rfl)
  exact h₄.step (hok _) (.checkUnset rfl rfl)

/-- A wake that comes while the executor sleeps leaves an unpark pending. -/
theorem reach_wakes_asleep : ∃ s : State, s.point = .blocked ∧ s.owed .main = true ∧
    s.Wakes .blockOn := by
  have hexec : ∀ s, Careful .blockOn s .executor := fun _ => trivial
  have hstore : ∀ s t id, Careful .blockOn s (.store t id) := fun _ _ _ => trivial
  have hwake : ∀ s t, Careful .blockOn s (.wake t) := fun _ _ => trivial
  have hswap : ∀ s t, s.point = .blocked → Careful .blockOn s (.swap t) := by
    intro s t hp _ _
    rw [hp]
    exact ⟨nofun, nofun⟩
  have h₀ := reach_window (Careful .blockOn) hexec
  have h₁ := h₀.step (hexec _) (.noneReady rfl rfl)
  have h₂ := h₁.step (hexec _) (.park rfl)
  have h₃ := h₂.step (hexec _) (.parkBlocks rfl rfl)
  have h₄ := h₃.step (hstore _ 0 .main) (.store rfl)
  have h₅ := h₄.step (hswap _ 0 rfl) (.swapParked rfl rfl)
  have h₆ := h₅.step (hwake _ 0) (.wake rfl)
  exact ⟨_, rfl, rfl, reach_wakes h₆⟩

/-- A wake of the main future between its check and the parked flag is not seen before the poll. -/
theorem not_wakes : ¬ ∀ (mode : Mode) (s : State), (system mode).Reachable s → s.Wakes mode := by
  intro h
  have h₀ := reach_window (fun _ _ => True) fun _ => trivial
  have h₁ := h₀.step trivial (@Step.store _ _ 0 .main rfl)
  have h₂ := h₁.step trivial (.swapAwake (t := 0) rfl rfl)
  have h₃ := h₂.step trivial (.noneReady rfl rfl)
  have h₄ := h₃.step trivial (.park rfl)
  have h₅ := h₄.step trivial (.parkBlocks rfl rfl)
  obtain ⟨hpending | ⟨t, id, fresh, ht⟩, -⟩ := h _ _ h₅ rfl .main rfl fun _ => rfl
  · cases hpending
  · rcases calls_cases (t := 0) rfl ht with heq | ⟨hne, ht⟩
    · cases heq
    · rcases calls_cases (t := 0) rfl ht with heq | ⟨-, ht⟩
      · cases heq
      · cases ht

end State

end Kernway.Executor
