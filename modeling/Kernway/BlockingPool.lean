import Kernway.Runs
import Mathlib.Logic.Function.Basic
import Mathlib.Logic.Relation

namespace Kernway.Blocking

/-- `Slot`, between the worker thread and the awaiting task. -/
structure Slot (T W : Type) where
  value : Option T := none
  waker : Option W := none
  finished : Bool := false

namespace Slot

variable {T W : Type}

/-- The critical section of `poll`; `none` is `Pending`. -/
def poll (slot : Slot T W) (waker : W) : Option (Option T) × Slot T W :=
  if slot.finished then (some slot.value, { slot with value := none })
  else (none, { slot with waker := some waker })

/-- The critical section at the end of a job: the waker to be woken, and the slot. -/
def complete (slot : Slot T W) (result : Option T) : Option W × Slot T W :=
  (slot.waker, { value := result, waker := none, finished := true })

end Slot

/-- Where a worker thread is in its loop: waiting for a job, in the closure, between the closure and
the critical section, or between that and the wake. -/
inductive Worker (W : Type)
  | idle
  | running (job : Nat)
  | storing (job : Nat)
  | waking (job : Nat) (waker : Option W)

def Worker.job {W : Type} : Worker W → Option Nat
  | idle => none
  | running j => some j
  | storing j => some j
  | waking j _ => some j

/-- The jobs are numbered in the order of their spawns, and `outcomes` says how their closures end,
`none` where they panic. The last five fields are a record: how often each closure was started, the
waker of the last poll of each future if that was `Pending`, the answer of its first poll that was
`Ready`, whether it was dropped, and the calls of `wake`. -/
structure State (T W : Type) where
  outcomes : List (Option T) := []
  queue : List Nat := []
  slots : Nat → Slot T W := fun _ => {}
  workers : Nat → Worker W := fun _ => .idle
  runs : Nat → Nat := fun _ => 0
  pending : Nat → Option W := fun _ => none
  ready : Nat → Option (Option T) := fun _ => none
  dropped : Nat → Bool := fun _ => false
  woken : List (Nat × W) := []

inductive Event (T W : Type)
  | spawn (outcome : Option T)
  | take (worker : Nat)
  | ended (worker : Nat)
  | store (worker : Nat)
  | wake (worker : Nat)
  | poll (job : Nat) (waker : W)
  | drop (job : Nat)

/-- The steps of the worker threads. -/
def Event.ofWorker {T W : Type} : Event T W → Prop
  | take _ | ended _ | store _ | wake _ => True
  | _ => False

namespace State

variable {T W : Type} (s : State T W)

/-- With no thread the channel is closed, and the job is lost. -/
def spawn (threads : Nat) (outcome : Option T) : State T W :=
  let slot : Slot T W := { finished := threads = 0 }
  { s with
    outcomes := s.outcomes ++ [outcome]
    queue := if threads = 0 then s.queue else s.queue ++ [s.outcomes.length]
    slots := Function.update s.slots s.outcomes.length slot }

def take (i j : Nat) (rest : List Nat) : State T W :=
  { s with
    queue := rest
    workers := Function.update s.workers i (.running j)
    runs := Function.update s.runs j (s.runs j + 1) }

def ended (i j : Nat) : State T W :=
  { s with workers := Function.update s.workers i (.storing j) }

def store (i j : Nat) (result : Option T) : State T W :=
  { s with
    slots := Function.update s.slots j ((s.slots j).complete result).2
    workers := Function.update s.workers i (.waking j ((s.slots j).complete result).1) }

def wake (i j : Nat) (waker : Option W) : State T W :=
  { s with
    workers := Function.update s.workers i .idle
    woken := s.woken ++ (waker.map fun w => (j, w)).toList }

def poll (j : Nat) (waker : W) : State T W :=
  let answer := ((s.slots j).poll waker).1
  { s with
    slots := Function.update s.slots j ((s.slots j).poll waker).2
    pending := Function.update s.pending j (if answer.isNone then some waker else none)
    ready := Function.update s.ready j ((s.ready j).or answer) }

def drop (j : Nat) : State T W := { s with dropped := Function.update s.dropped j true }

end State

variable {T W : Type}

/-- The steps of a pool of some worker threads, and of the tasks that spawn, poll and drop. -/
inductive Step (threads : Nat) : State T W → Event T W → State T W → Prop
  | spawn (s : State T W) (outcome : Option T) :
    Step threads s (.spawn outcome) (s.spawn threads outcome)
  | take {s : State T W} {i j : Nat} {rest : List Nat} (hi : i < threads)
    (hworker : s.workers i = .idle) (hqueue : s.queue = j :: rest) :
    Step threads s (.take i) (s.take i j rest)
  | ended {s : State T W} {i j : Nat} (hworker : s.workers i = .running j) :
    Step threads s (.ended i) (s.ended i j)
  | store {s : State T W} {i j : Nat} {result : Option T} (hworker : s.workers i = .storing j)
    (hresult : s.outcomes[j]? = some result) : Step threads s (.store i) (s.store i j result)
  | wake {s : State T W} {i j : Nat} {waker : Option W} (hworker : s.workers i = .waking j waker) :
    Step threads s (.wake i) (s.wake i j waker)
  | poll {s : State T W} {j : Nat} (waker : W) (hj : j < s.outcomes.length)
    (hdrop : s.dropped j = false) : Step threads s (.poll j waker) (s.poll j waker)
  | drop {s : State T W} {j : Nat} (hj : j < s.outcomes.length) (hdrop : s.dropped j = false) :
    Step threads s (.drop j) (s.drop j)

def system (T W : Type) (threads : Nat) : System (State T W) (Event T W) where
  start s := s = {}
  step := Step threads

def WorkerStep (threads : Nat) (s s' : State T W) : Prop :=
  ∃ e : Event T W, e.ofWorker ∧ Step threads s e s'

namespace State

/-- A worker thread has taken the job. -/
def Started (s : State T W) (j : Nat) : Prop := j < s.outcomes.length ∧ j ∉ s.queue

/-- The closure of the job is running, or has ended and its end is not stored yet. -/
def Busy (s : State T W) (j : Nat) : Prop :=
  ∃ i, s.workers i = .running j ∨ s.workers i = .storing j

/-- The job is over, its wake included. -/
def Over (s : State T W) (j : Nat) : Prop := s.Started j ∧ ∀ i, (s.workers i).job ≠ some j

/-- The promise of `spawn_blocking`: a closure runs at most once; the first answer of a future is
how its closure ended; once the job is over, a poll answers, and the waker of a last poll that was
`Pending` has been woken; that is woken or about to be from the moment at which the slot is
finished; and the workers, left alone, come to rest, with every job over. -/
structure Delivers (threads : Nat) (s : State T W) : Prop where
  once : ∀ j, s.runs j ≤ 1
  answer : ∀ j a, s.ready j = some a → s.outcomes[j]? = some a
  answers : ∀ j w s', s.Over j → Step threads s (.poll j w) s' → s'.ready j = s.outcomes[j]?
  woken : ∀ j w, s.pending j = some w → s.Over j → (j, w) ∈ s.woken
  owed : ∀ j w, s.pending j = some w → (s.slots j).finished = true →
    (j, w) ∈ s.woken ∨ ∃ i, s.workers i = .waking j (some w)
  rests : ¬ ∃ run : Nat → State T W, run 0 = s ∧ ∀ k, WorkerStep threads (run k) (run (k + 1))
  ended : ∀ s', Relation.ReflTransGen (WorkerStep threads) s s' →
    (∀ s'', ¬ WorkerStep threads s' s'') → ∀ j < s'.outcomes.length, s'.Over j

/-- The waker is woken, or a worker is about to wake it. -/
def Owed (s : State T W) (j : Nat) (w : W) : Prop :=
  (j, w) ∈ s.woken ∨ ∃ i, s.workers i = .waking j (some w)

/-- What holds of one job in every state that is reached. -/
structure JobInv (s : State T W) (j : Nat) : Prop where
  fresh : s.outcomes.length ≤ j → s.runs j = 0 ∧ s.pending j = none ∧ s.ready j = none
  runs : j < s.outcomes.length → s.runs j = if j ∈ s.queue then 0 else 1
  finished : j < s.outcomes.length → ((s.slots j).finished = true ↔ s.Started j ∧ ¬ s.Busy j)
  parked : ∀ w, s.pending j = some w → (s.slots j).finished = false → (s.slots j).waker = some w
  owed : ∀ w, s.pending j = some w → (s.slots j).finished = true → s.Owed j w
  value : j < s.outcomes.length → (s.slots j).finished = true → s.ready j = none →
    s.outcomes[j]? = some (s.slots j).value
  ready : ∀ a, s.ready j = some a → (s.slots j).finished = true ∧ s.outcomes[j]? = some a

structure Inv (threads : Nat) (s : State T W) : Prop where
  queued : ∀ j ∈ s.queue, j < s.outcomes.length
  nodup : s.queue.Nodup
  held : ∀ i j, (s.workers i).job = some j → i < threads ∧ s.Started j
  unique : ∀ i i' j, (s.workers i).job = some j → (s.workers i').job = some j → i = i'
  job : ∀ j, s.JobInv j

/-- A step that leaves a job where it is. -/
theorem JobInv.of_same {s s' : State T W} {j : Nat} (h : s.JobInv j)
    (hlength : j < s'.outcomes.length ↔ j < s.outcomes.length)
    (houtcome : s'.outcomes[j]? = s.outcomes[j]?) (hqueue : j ∈ s'.queue ↔ j ∈ s.queue)
    (hslot : s'.slots j = s.slots j) (hruns : s'.runs j = s.runs j)
    (hpending : s'.pending j = s.pending j) (hready : s'.ready j = s.ready j)
    (hbusy : s'.Busy j ↔ s.Busy j) (howed : ∀ w, s.Owed j w → s'.Owed j w) : s'.JobInv j where
  fresh hj := by
    rw [hruns, hpending, hready]
    exact h.fresh (Nat.not_lt.mp fun hlt => Nat.not_lt.mpr hj (hlength.mpr hlt))
  runs hj := by
    rw [hruns, h.runs (hlength.mp hj)]
    simp only [hqueue]
  finished hj := by
    rw [hslot, h.finished (hlength.mp hj), hbusy]
    unfold Started
    rw [hqueue, hlength]
  parked w hw hf := by
    rw [hpending] at hw
    rw [hslot] at hf ⊢
    exact h.parked w hw hf
  owed w hw hf := by
    rw [hpending] at hw
    rw [hslot] at hf
    exact howed w (h.owed w hw hf)
  value hj hf hr := by
    rw [hslot] at hf ⊢
    rw [hready] at hr
    rw [houtcome]
    exact h.value (hlength.mp hj) hf hr
  ready a ha := by
    rw [hready] at ha
    rw [hslot, houtcome]
    exact h.ready a ha

section Workers

variable {s s' : State T W} {i j : Nat} {x : Worker W}

/-- A worker that moves on is of no concern to the jobs it does not have. -/
theorem busy_update (hworkers : s'.workers = Function.update s.workers i x)
    (hold : (s.workers i).job ≠ some j) (hnew : x.job ≠ some j) : s'.Busy j ↔ s.Busy j := by
  unfold Busy
  rw [hworkers]
  refine exists_congr fun i' => ?_
  by_cases hi : i' = i
  · subst hi
    rw [Function.update_self]
    constructor
    · rintro (h | h)
      · exact absurd (congrArg Worker.job h) hnew
      · exact absurd (congrArg Worker.job h) hnew
    · rintro (h | h)
      · exact absurd (congrArg Worker.job h) hold
      · exact absurd (congrArg Worker.job h) hold
  · rw [Function.update_of_ne hi]

theorem owed_update (s' : State T W) (hworkers : s'.workers = Function.update s.workers i x)
    (hwoken : s.woken ⊆ s'.woken) (hold : (s.workers i).job ≠ some j) {w : W} (h : s.Owed j w) :
    s'.Owed j w := by
  refine h.imp (fun hin => hwoken hin) ?_
  rintro ⟨i', hi'⟩
  refine ⟨i', ?_⟩
  rw [hworkers, Function.update_of_ne]
  · exact hi'
  · rintro rfl
    exact hold (congrArg Worker.job hi')

/-- No other worker than the one that has the job is busy with it. -/
theorem Inv.busy_iff {threads : Nat} (h : s.Inv threads) (hjob : (s.workers i).job = some j) :
    s.Busy j ↔ s.workers i = .running j ∨ s.workers i = .storing j := by
  constructor
  · rintro ⟨i', hi'⟩
    have hjob' : (s.workers i').job = some j := by
      rcases hi' with hi' | hi'
      · rw [hi']; rfl
      · rw [hi']; rfl
    rw [h.unique i i' j hjob hjob']
    exact hi'
  · exact fun h => ⟨i, h⟩

/-- A worker that keeps its job, or gives it up. -/
theorem Inv.of_update {threads : Nat} (h : s.Inv threads)
    (hworkers : s'.workers = Function.update s.workers i x) (hqueue : s'.queue = s.queue)
    (houtcomes : s'.outcomes = s.outcomes) (hold : (s.workers i).job = some j)
    (hnew : x.job = some j ∨ x.job = none) (hjob : ∀ j, s'.JobInv j) : s'.Inv threads where
  queued := by
    rw [hqueue, houtcomes]
    exact h.queued
  nodup := by
    rw [hqueue]
    exact h.nodup
  held := by
    intro i' j' hj'
    unfold Started
    rw [hqueue, houtcomes]
    rw [hworkers] at hj'
    by_cases hi : i' = i
    · subst hi
      rw [Function.update_self] at hj'
      rcases hnew with hnew | hnew
      · rw [hnew] at hj'
        cases hj'
        exact h.held i' j hold
      · rw [hnew] at hj'
        cases hj'
    · rw [Function.update_of_ne hi] at hj'
      exact h.held i' j' hj'
  unique := by
    have hsub : ∀ i' j', (s'.workers i').job = some j' → (s.workers i').job = some j' := by
      intro i' j' hj'
      rw [hworkers] at hj'
      by_cases hi : i' = i
      · subst hi
        rw [Function.update_self] at hj'
        rcases hnew with hnew | hnew
        · rw [hnew] at hj'
          rw [hold, ← hj']
        · rw [hnew] at hj'
          cases hj'
      · rwa [Function.update_of_ne hi] at hj'
    intro i' i'' j' hi' hi''
    exact h.unique i' i'' j' (hsub i' j' hi') (hsub i'' j' hi'')
  job := hjob

end Workers

section Steps

variable {s : State T W} {threads i j : Nat}

theorem Inv.spawn (h : s.Inv threads) (hthreads : 0 < threads) (outcome : Option T) :
    (s.spawn threads outcome).Inv threads := by
  have hne : threads ≠ 0 := Nat.ne_of_gt hthreads
  have hqueue : (s.spawn threads outcome).queue = s.queue ++ [s.outcomes.length] := if_neg hne
  have hlength : (s.spawn threads outcome).outcomes.length = s.outcomes.length + 1 :=
    List.length_append
  have hmem : ∀ j, j ∈ (s.spawn threads outcome).queue ↔ j ∈ s.queue ∨ j = s.outcomes.length := by
    intro j
    rw [hqueue, List.mem_append, List.mem_singleton]
  refine ⟨fun j hj => ?_, ?_, fun i j hj => ?_, h.unique, fun j => ?_⟩
  · rw [hlength]
    rcases (hmem j).mp hj with hj | rfl
    · exact Nat.lt_succ_of_lt (h.queued j hj)
    · exact Nat.lt_succ_self _
  · rw [hqueue]
    refine List.nodup_append.mpr ⟨h.nodup, List.pairwise_singleton _ _, fun a ha b hb => ?_⟩
    rw [List.mem_singleton.mp hb]
    exact Nat.ne_of_lt (h.queued a ha)
  · obtain ⟨hi, hlt, hnot⟩ := h.held i j hj
    refine ⟨hi, ?_, fun hin => ?_⟩
    · rw [hlength]
      exact Nat.lt_succ_of_lt hlt
    · exact ((hmem j).mp hin).elim hnot (Nat.ne_of_lt hlt)
  · by_cases hj : j = s.outcomes.length
    · subst hj
      obtain ⟨hruns, hpending, hready⟩ := (h.job s.outcomes.length).fresh (Nat.le_refl _)
      have hslot : (s.spawn threads outcome).slots s.outcomes.length = {} := by
        show Function.update s.slots _ _ s.outcomes.length = _
        rw [Function.update_self, decide_eq_false hne]
      have hin : s.outcomes.length ∈ (s.spawn threads outcome).queue := (hmem _).mpr (.inr rfl)
      refine ⟨fun _ => ⟨hruns, hpending, hready⟩, fun _ => ?_, fun _ => ?_, fun w hw => ?_,
        fun w hw => ?_, fun _ hf => ?_, fun a ha => ?_⟩
      · rw [if_pos hin]
        exact hruns
      · rw [hslot]
        exact ⟨fun hf => absurd hf Bool.false_ne_true, fun hs => absurd hin hs.1.2⟩
      · exact absurd (hpending.symm.trans hw) (by simp)
      · exact absurd (hpending.symm.trans hw) (by simp)
      · rw [hslot] at hf
        cases hf
      · exact absurd (hready.symm.trans ha) (by simp)
    · refine (h.job j).of_same ?_ ?_ ?_ ?_ rfl rfl rfl Iff.rfl fun w hw => hw
      · rw [hlength]
        omega
      · show (s.outcomes ++ [outcome])[j]? = s.outcomes[j]?
        by_cases hlt : j < s.outcomes.length
        · exact List.getElem?_append_left hlt
        · have hnone : s.outcomes[j]? = none := List.getElem?_eq_none (Nat.not_lt.mp hlt)
          have hnone' : (s.outcomes ++ [outcome])[j]? = none := by
            refine List.getElem?_eq_none ?_
            rw [List.length_append, List.length_singleton]
            omega
          rw [hnone, hnone']
      · rw [hmem]
        exact or_iff_left hj
      · exact Function.update_of_ne hj _ _

theorem Inv.take (h : s.Inv threads) {rest : List Nat} (hi : i < threads)
    (hworker : s.workers i = .idle) (hqueue : s.queue = j :: rest) :
    (s.take i j rest).Inv threads := by
  have hj : j ∈ s.queue := by
    rw [hqueue]
    exact List.mem_cons_self
  have hnodup := h.nodup
  rw [hqueue, List.nodup_cons] at hnodup
  have hlt := h.queued j hj
  have hfree : ∀ i', (s.workers i').job ≠ some j := fun i' hi' => (h.held i' j hi').2.2 hj
  have hmem : ∀ {j'}, j' ≠ j → (j' ∈ rest ↔ j' ∈ s.queue) := by
    intro j' hne
    rw [hqueue, List.mem_cons]
    exact (or_iff_right hne).symm
  have hworkers : ∀ i' j', ((s.take i j rest).workers i').job = some j' →
      i' = i ∧ j' = j ∨ i' ≠ i ∧ (s.workers i').job = some j' := by
    intro i' j' hjob
    by_cases hne : i' = i
    · left
      subst hne
      have hself : (s.take i' j rest).workers i' = .running j := Function.update_self ..
      rw [hself] at hjob
      cases hjob
      exact ⟨rfl, rfl⟩
    · right
      have hother : (s.take i j rest).workers i' = s.workers i' := Function.update_of_ne hne _ _
      rw [hother] at hjob
      exact ⟨hne, hjob⟩
  refine ⟨fun j' hj' => ?_, hnodup.2, fun i' j' hjob => ?_, fun i' i'' j' hi' hi'' => ?_,
    fun j' => ?_⟩
  · exact h.queued j' (by rw [hqueue]; exact List.mem_cons_of_mem _ hj')
  · rcases hworkers i' j' hjob with ⟨rfl, rfl⟩ | ⟨_, hjob⟩
    · exact ⟨hi, hlt, hnodup.1⟩
    · obtain ⟨hi', hlt', hnot⟩ := h.held i' j' hjob
      exact ⟨hi', hlt', fun hin => hnot (by rw [hqueue]; exact List.mem_cons_of_mem _ hin)⟩
  · rcases hworkers i' j' hi' with ⟨hself, hj'⟩ | ⟨_, hother⟩
    · rcases hworkers i'' j' hi'' with ⟨hself', _⟩ | ⟨_, hother'⟩
      · rw [hself, hself']
      · exact absurd hother' (hj' ▸ hfree i'')
    · rcases hworkers i'' j' hi'' with ⟨_, hj'⟩ | ⟨_, hother'⟩
      · exact absurd hother (hj' ▸ hfree i')
      · exact h.unique i' i'' j' hother hother'
  · have hold : (s.workers i).job ≠ some j' := by
      rw [hworker]
      exact fun heq => by cases heq
    by_cases hne : j' = j
    · subst hne
      have hunfinished : (s.slots j').finished = false := by
        cases hf : (s.slots j').finished with
        | false => rfl
        | true => exact absurd hj (((h.job j').finished hlt).mp hf).1.2
      refine ⟨fun hle => absurd hlt (Nat.not_lt.mpr hle), fun _ => ?_, fun _ => ?_,
        (h.job j').parked, fun w hw hf => ?_, fun _ hf => ?_, fun a ha => ?_⟩
      · show Function.update s.runs j' (s.runs j' + 1) j' = if j' ∈ rest then 0 else 1
        rw [if_neg hnodup.1, Function.update_self, (h.job j').runs hlt, if_pos hj]
      · have hbusy : (s.take i j' rest).Busy j' := ⟨i, .inl (Function.update_self ..)⟩
        exact ⟨fun hf => absurd (hunfinished.symm.trans hf) Bool.false_ne_true,
          fun hstarted => absurd hbusy hstarted.2⟩
      · exact absurd (hunfinished.symm.trans hf) Bool.false_ne_true
      · exact absurd (hunfinished.symm.trans hf) Bool.false_ne_true
      · exact absurd (hunfinished.symm.trans ((h.job j').ready a ha).1) Bool.false_ne_true
    · have hnew : (Worker.running j : Worker W).job ≠ some j' := fun heq =>
        hne (Option.some.inj heq).symm
      exact (h.job j').of_same Iff.rfl rfl (hmem hne) rfl (Function.update_of_ne hne _ _) rfl rfl
        (busy_update rfl hold hnew) fun w hw => owed_update (s.take i j rest) rfl (fun _ hin => hin) hold hw

theorem Inv.ended (h : s.Inv threads) (hworker : s.workers i = .running j) :
    (s.ended i j).Inv threads := by
  have hold : (s.workers i).job = some j := by rw [hworker]; rfl
  have hnot : ∀ j', j' ≠ j → (s.workers i).job ≠ some j' := fun j' hne heq =>
    hne (Option.some.inj (heq.symm.trans hold))
  refine h.of_update rfl rfl rfl hold (.inl rfl) fun j' => ?_
  by_cases hne : j' = j
  · subst hne
    have hbusy : (s.ended i j').Busy j' ↔ s.Busy j' :=
      ⟨fun _ => ⟨i, .inl hworker⟩, fun _ => ⟨i, .inr (Function.update_self ..)⟩⟩
    refine (h.job j').of_same Iff.rfl rfl Iff.rfl rfl rfl rfl rfl hbusy ?_
    intro w hw
    refine hw.imp_right ?_
    rintro ⟨i', hi'⟩
    have hi : i' = i := h.unique i' i j' (congrArg Worker.job hi') hold
    rw [hi, hworker] at hi'
    cases hi'
  · have hnew : (Worker.storing j : Worker W).job ≠ some j' := fun heq =>
      hne (Option.some.inj heq).symm
    exact (h.job j').of_same Iff.rfl rfl Iff.rfl rfl rfl rfl rfl
      (busy_update rfl (hnot j' hne) hnew)
      fun w hw => owed_update (s.ended i j) rfl (fun _ hin => hin) (hnot j' hne) hw

theorem Inv.store (h : s.Inv threads) {result : Option T} (hworker : s.workers i = .storing j)
    (hresult : s.outcomes[j]? = some result) : (s.store i j result).Inv threads := by
  have hold : (s.workers i).job = some j := by rw [hworker]; rfl
  have hnot : ∀ j', j' ≠ j → (s.workers i).job ≠ some j' := fun j' hne heq =>
    hne (Option.some.inj (heq.symm.trans hold))
  obtain ⟨_, hlt, hqueue⟩ := h.held i j hold
  refine h.of_update rfl rfl rfl hold (.inl rfl) fun j' => ?_
  by_cases hne : j' = j
  · subst hne
    have hslot : (s.store i j' result).slots j' = ⟨result, none, true⟩ := Function.update_self ..
    have hself : (s.store i j' result).workers i = .waking j' (s.slots j').waker :=
      Function.update_self ..
    have hunfinished : (s.slots j').finished = false := by
      cases hf : (s.slots j').finished with
      | false => rfl
      | true => exact absurd ⟨i, .inr hworker⟩ (((h.job j').finished hlt).mp hf).2
    have hidle : ¬ (s.store i j' result).Busy j' := by
      rintro ⟨i', hi'⟩
      by_cases hi : i' = i
      · rw [hi, hself] at hi'
        rcases hi' with hi' | hi' <;> cases hi'
      · have hother : (s.store i j' result).workers i' = s.workers i' :=
          Function.update_of_ne hi _ _
        rw [hother] at hi'
        have hjob : (s.workers i').job = some j' := by
          rcases hi' with hi' | hi'
          · rw [hi']; rfl
          · rw [hi']; rfl
        exact hi (h.unique i' i j' hjob hold)
    refine ⟨(h.job j').fresh, (h.job j').runs, fun _ => ?_, fun w _ hf => ?_, fun w hw _ => ?_,
      fun _ _ _ => ?_, fun a ha => ?_⟩
    · rw [hslot]
      exact ⟨fun _ => ⟨⟨hlt, hqueue⟩, hidle⟩, fun _ => rfl⟩
    · rw [hslot] at hf
      cases hf
    · -- the waker of the last poll is in the slot, and so in the worker's hands
      right
      exact ⟨i, by rw [hself, (h.job j').parked w hw hunfinished]⟩
    · rw [hslot]
      exact hresult
    · exact absurd (hunfinished.symm.trans ((h.job j').ready a ha).1) Bool.false_ne_true
  · have hnew : (Worker.waking j (s.slots j).waker : Worker W).job ≠ some j' := fun heq =>
      hne (Option.some.inj heq).symm
    exact (h.job j').of_same Iff.rfl rfl Iff.rfl (Function.update_of_ne hne _ _) rfl rfl rfl
      (busy_update rfl (hnot j' hne) hnew)
      fun w hw => owed_update (s.store i j result) rfl (fun _ hin => hin) (hnot j' hne) hw

theorem Inv.wake (h : s.Inv threads) {waker : Option W} (hworker : s.workers i = .waking j waker) :
    (s.wake i j waker).Inv threads := by
  have hold : (s.workers i).job = some j := by rw [hworker]; rfl
  have hnot : ∀ j', j' ≠ j → (s.workers i).job ≠ some j' := fun j' hne heq =>
    hne (Option.some.inj (heq.symm.trans hold))
  have hwoken : s.woken ⊆ (s.wake i j waker).woken := List.subset_append_left _ _
  refine h.of_update rfl rfl rfl hold (.inr rfl) fun j' => ?_
  by_cases hne : j' = j
  · subst hne
    have hidle : ¬ s.Busy j' := by
      rw [h.busy_iff hold, hworker]
      simp
    have hidle' : ¬ (s.wake i j' waker).Busy j' := by
      rintro ⟨i', hi'⟩
      by_cases hi : i' = i
      · have hself : (s.wake i j' waker).workers i' = .idle := by
          rw [hi]
          exact Function.update_self ..
        rw [hself] at hi'
        rcases hi' with hi' | hi' <;> cases hi'
      · have hother : (s.wake i j' waker).workers i' = s.workers i' :=
          Function.update_of_ne hi _ _
        rw [hother] at hi'
        exact hidle ⟨i', hi'⟩
    refine (h.job j').of_same Iff.rfl rfl Iff.rfl rfl rfl rfl rfl
      ⟨fun hb => absurd hb hidle', fun hb => absurd hb hidle⟩ ?_
    rintro w (hin | ⟨i', hi'⟩)
    · exact .inl (hwoken hin)
    · have hi : i' = i := h.unique i' i j' (congrArg Worker.job hi') hold
      rw [hi, hworker] at hi'
      cases hi'
      exact .inl (List.mem_append_right _ (by simp))
  · have hnew : (Worker.idle : Worker W).job ≠ some j' := fun heq => by cases heq
    exact (h.job j').of_same Iff.rfl rfl Iff.rfl rfl rfl rfl rfl
      (busy_update rfl (hnot j' hne) hnew)
      fun w hw => owed_update (s.wake i j waker) rfl hwoken (hnot j' hne) hw

theorem Inv.poll (h : s.Inv threads) (hj : j < s.outcomes.length) (waker : W) :
    (s.poll j waker).Inv threads := by
  refine ⟨h.queued, h.nodup, h.held, h.unique, fun j' => ?_⟩
  by_cases hne : j' = j
  · subst hne
    have hinv := h.job j'
    have hslot : (s.poll j' waker).slots j' = ((s.slots j').poll waker).2 :=
      Function.update_self ..
    have hpending : (s.poll j' waker).pending j' =
        if ((s.slots j').poll waker).1.isNone then some waker else none := Function.update_self ..
    have hready : (s.poll j' waker).ready j' =
        (s.ready j').or ((s.slots j').poll waker).1 := Function.update_self ..
    cases hf : (s.slots j').finished with
    | false =>
      have hpoll : (s.slots j').poll waker =
          (none, { s.slots j' with waker := some waker }) :=
        if_neg (by rw [hf]; exact Bool.false_ne_true)
      rw [hpoll] at hslot hpending hready
      rw [Option.or_none] at hready
      have hfinished : ((s.poll j' waker).slots j').finished = false := by
        rw [hslot]
        exact hf
      refine ⟨fun hle => absurd hj (Nat.not_lt.mpr hle), hinv.runs, fun hlt => ?_, fun w hw _ => ?_,
        fun w _ hf' => ?_, fun _ hf' => ?_, fun a ha => ?_⟩
      · have hiff := hinv.finished hlt
        rw [hf] at hiff
        rw [hfinished]
        exact hiff
      · rw [hslot]
        exact hpending.symm.trans hw
      · exact absurd (hfinished.symm.trans hf') Bool.false_ne_true
      · exact absurd (hfinished.symm.trans hf') Bool.false_ne_true
      · rw [hready] at ha
        exact absurd (hf.symm.trans (hinv.ready a ha).1) Bool.false_ne_true
    | true =>
      have hpoll : (s.slots j').poll waker =
          (some (s.slots j').value, { s.slots j' with value := none }) := if_pos hf
      rw [hpoll] at hslot hpending hready
      have hfinished : ((s.poll j' waker).slots j').finished = true := by
        rw [hslot]
        exact hf
      refine ⟨fun hle => absurd hj (Nat.not_lt.mpr hle), hinv.runs, fun hlt => ?_, fun w hw _ => ?_,
        fun w hw _ => ?_, fun _ _ hr => ?_, fun a ha => ?_⟩
      · have hiff := hinv.finished hlt
        rw [hf] at hiff
        rw [hfinished]
        exact hiff
      · exact absurd (hpending.symm.trans hw) (by simp)
      · exact absurd (hpending.symm.trans hw) (by simp)
      · rw [hready] at hr
        exact absurd hr (by simp)
      · refine ⟨hfinished, ?_⟩
        rw [hready] at ha
        cases hr : s.ready j' with
        | some b =>
          rw [hr, Option.some_or] at ha
          rw [← ha]
          exact (hinv.ready b hr).2
        | none =>
          rw [hr, Option.none_or] at ha
          rw [← ha]
          exact hinv.value hj hf hr
  · exact (h.job j').of_same Iff.rfl rfl Iff.rfl (Function.update_of_ne hne _ _) rfl
      (Function.update_of_ne hne _ _) (Function.update_of_ne hne _ _) Iff.rfl fun w hw => hw

theorem Inv.step (h : s.Inv threads) (hthreads : 0 < threads) {e : Event T W} {s' : State T W}
    (hstep : Step threads s e s') : s'.Inv threads := by
  cases hstep with
  | spawn outcome => exact h.spawn hthreads outcome
  | take hi hworker hqueue => exact h.take hi hworker hqueue
  | ended hworker => exact h.ended hworker
  | store hworker hresult => exact h.store hworker hresult
  | wake hworker => exact h.wake hworker
  | poll waker hj _ => exact h.poll hj waker
  | drop _ _ =>
    refine ⟨h.queued, h.nodup, h.held, h.unique, fun j => ?_⟩
    exact (h.job j).of_same Iff.rfl rfl Iff.rfl rfl rfl rfl rfl Iff.rfl fun w hw => hw

end Steps

end State

section Progress

/-- The steps that a worker thread still has to take before it is idle. -/
def Worker.rank : Worker W → Nat
  | idle => 0
  | waking _ _ => 1
  | storing _ => 2
  | running _ => 3

def busyWork (workers : Nat → Worker W) : Nat → Nat
  | 0 => 0
  | n + 1 => busyWork workers n + (workers n).rank

/-- The steps that the worker threads have to take until all jobs are over. -/
def State.work (threads : Nat) (s : State T W) : Nat :=
  4 * s.queue.length + busyWork s.workers threads

theorem busyWork_congr {workers workers' : Nat → Worker W} {n : Nat}
    (h : ∀ i < n, workers' i = workers i) : busyWork workers' n = busyWork workers n := by
  induction n with
  | zero => rfl
  | succ n ih =>
    have hlast := h n (Nat.lt_succ_self n)
    have hrest := ih fun i hi => h i (Nat.lt_succ_of_lt hi)
    rw [busyWork, busyWork, hrest, hlast]

theorem busyWork_update (workers : Nat → Worker W) {i n : Nat} (hi : i < n) (x : Worker W) :
    busyWork (Function.update workers i x) n + (workers i).rank = busyWork workers n + x.rank := by
  induction n with
  | zero => exact absurd hi (Nat.not_lt_zero i)
  | succ n ih =>
    rw [busyWork, busyWork]
    by_cases hin : i = n
    · subst hin
      have hrest : busyWork (Function.update workers i x) i = busyWork workers i :=
        busyWork_congr fun k hk => Function.update_of_ne (Nat.ne_of_lt hk) _ _
      rw [hrest, Function.update_self]
      omega
    · have hlast : Function.update workers i x n = workers n :=
        Function.update_of_ne (Ne.symm hin) _ _
      have hrest := ih (Nat.lt_of_le_of_ne (Nat.le_of_lt_succ hi) hin)
      rw [hlast]
      omega

variable {threads : Nat} {s s' : State T W}

theorem work_lt (h : s.Inv threads) (hstep : WorkerStep threads s s') :
    s'.work threads < s.work threads := by
  obtain ⟨e, hworker, hstep⟩ := hstep
  have hupdate : ∀ {i j : Nat} {x : Worker W}, (s.workers i).job = some j →
      busyWork (Function.update s.workers i x) threads + (s.workers i).rank =
        busyWork s.workers threads + x.rank :=
    fun hjob => busyWork_update s.workers (h.held _ _ hjob).1 _
  cases hstep with
  | spawn outcome => cases hworker
  | poll waker hj _ => cases hworker
  | drop _ _ => cases hworker
  | @take i j rest hi hidle hqueue =>
    have hsum := busyWork_update s.workers hi (.running j)
    rw [hidle] at hsum
    show 4 * rest.length + busyWork (Function.update s.workers i (.running j)) threads <
      4 * s.queue.length + busyWork s.workers threads
    rw [hqueue, List.length_cons]
    simp only [Worker.rank] at hsum
    omega
  | @ended i j hrunning =>
    have hsum := @hupdate i j (.storing j) (by rw [hrunning]; rfl)
    rw [hrunning] at hsum
    simp only [Worker.rank] at hsum
    show 4 * s.queue.length + busyWork (Function.update s.workers i (.storing j)) threads <
      4 * s.queue.length + busyWork s.workers threads
    omega
  | @store i j result hstoring _ =>
    have hsum := @hupdate i j (.waking j (s.slots j).waker) (by rw [hstoring]; rfl)
    rw [hstoring] at hsum
    simp only [Worker.rank] at hsum
    show 4 * s.queue.length +
        busyWork (Function.update s.workers i (.waking j (s.slots j).waker)) threads <
      4 * s.queue.length + busyWork s.workers threads
    omega
  | @wake i j waker hwaking =>
    have hsum := @hupdate i j .idle (by rw [hwaking]; rfl)
    rw [hwaking] at hsum
    simp only [Worker.rank] at hsum
    show 4 * s.queue.length + busyWork (Function.update s.workers i .idle) threads <
      4 * s.queue.length + busyWork s.workers threads
    omega

/-- A worker that has a job can go on with it. -/
theorem worker_enabled (h : s.Inv threads) {i j : Nat} (hjob : (s.workers i).job = some j) :
    ∃ s', WorkerStep threads s s' := by
  cases hworker : s.workers i with
  | idle =>
    rw [hworker] at hjob
    cases hjob
  | running j => exact ⟨_, .ended i, trivial, .ended hworker⟩
  | storing j' =>
    have hlt := (h.held i j' (by rw [hworker]; rfl)).2.1
    exact ⟨_, .store i, trivial, .store hworker (List.getElem?_eq_getElem hlt)⟩
  | waking j waker => exact ⟨_, .wake i, trivial, .wake hworker⟩

theorem over_of_rest (h : s.Inv threads) (hthreads : 0 < threads)
    (hrest : ∀ s', ¬ WorkerStep threads s s') {j : Nat} (hj : j < s.outcomes.length) :
    s.Over j := by
  have hidle : ∀ i j, (s.workers i).job ≠ some j := fun i j hjob => by
    obtain ⟨s', hstep⟩ := worker_enabled h hjob
    exact hrest s' hstep
  refine ⟨⟨hj, fun hin => ?_⟩, fun i => hidle i j⟩
  cases hqueue : s.queue with
  | nil =>
    rw [hqueue] at hin
    cases hin
  | cons first rest =>
    have hworker : s.workers 0 = .idle := by
      cases hworker : s.workers 0 with
      | idle => rfl
      | running j => exact absurd (congrArg Worker.job hworker) (hidle 0 j)
      | storing j => exact absurd (congrArg Worker.job hworker) (hidle 0 j)
      | waking j w => exact absurd (congrArg Worker.job hworker) (hidle 0 j)
    exact hrest _ ⟨.take 0, trivial, .take hthreads hworker hqueue⟩

theorem inv_of_workerStep (h : s.Inv threads) (hthreads : 0 < threads)
    (hstep : WorkerStep threads s s') : s'.Inv threads := by
  obtain ⟨e, _, hstep⟩ := hstep
  exact h.step hthreads hstep

/-- The invariant gives the promise. -/
theorem State.Inv.delivers (h : s.Inv threads) (hthreads : 0 < threads) : s.Delivers threads where
  once j := by
    by_cases hj : j < s.outcomes.length
    · rw [(h.job j).runs hj]
      split
      next => exact Nat.zero_le 1
      next => exact Nat.le_refl 1
    · rw [((h.job j).fresh (Nat.not_lt.mp hj)).1]
      exact Nat.zero_le 1
  answer j a ha := ((h.job j).ready a ha).2
  answers := by
    intro j w s' hover hstep
    cases hstep with
    | poll waker hj _ =>
      have hidle : ¬ s.Busy j := by
        rintro ⟨i, hi | hi⟩
        · exact hover.2 i (congrArg Worker.job hi)
        · exact hover.2 i (congrArg Worker.job hi)
      have hfinished := ((h.job j).finished hj).mpr ⟨hover.1, hidle⟩
      have hready : (s.poll j w).ready j = (s.ready j).or (some (s.slots j).value) := by
        have hpoll : (s.slots j).poll w =
            (some (s.slots j).value, { s.slots j with value := none }) := if_pos hfinished
        show Function.update s.ready j ((s.ready j).or ((s.slots j).poll w).1) j = _
        rw [Function.update_self, hpoll]
      rw [hready]
      cases hr : s.ready j with
      | some a => exact ((h.job j).ready a hr).2.symm
      | none => exact ((h.job j).value hj hfinished hr).symm
  woken := by
    intro j w hw hover
    have hidle : ¬ s.Busy j := by
      rintro ⟨i, hi | hi⟩
      · exact hover.2 i (congrArg Worker.job hi)
      · exact hover.2 i (congrArg Worker.job hi)
    have hfinished := ((h.job j).finished hover.1.1).mpr ⟨hover.1, hidle⟩
    refine ((h.job j).owed w hw hfinished).resolve_right ?_
    rintro ⟨i, hi⟩
    exact hover.2 i (congrArg Worker.job hi)
  owed j w hw hf := (h.job j).owed w hw hf
  rests := by
    rintro ⟨run, hrun, hsteps⟩
    have hinv : ∀ k, (run k).Inv threads ∧ (run k).work threads + k ≤ s.work threads := by
      intro k
      induction k with
      | zero =>
        rw [hrun]
        exact ⟨h, Nat.le_refl _⟩
      | succ k ih =>
        have hlt := work_lt ih.1 (hsteps k)
        exact ⟨inv_of_workerStep ih.1 hthreads (hsteps k), by omega⟩
    have hbound := (hinv (s.work threads + 1)).2
    omega
  ended := by
    intro s' hrun hrest j hj
    have hinv : s'.Inv threads := by
      clear hrest hj
      induction hrun with
      | refl => exact h
      | tail _ hstep ih => exact inv_of_workerStep ih hthreads hstep
    exact over_of_rest hinv hthreads hrest hj

end Progress

theorem inv_of_reachable {threads : Nat} (hthreads : 0 < threads) {s : State T W}
    (h : (system T W threads).Reachable s) : s.Inv threads := by
  refine System.Reach.invariant ?_ ?_ h
  · rintro _ rfl
    refine ⟨fun j hj => (nomatch hj), List.nodup_nil, fun i j hj => (nomatch hj),
      fun i i' j hj => (nomatch hj), fun j => ?_⟩
    refine ⟨fun _ => ⟨rfl, rfl, rfl⟩, fun hj => ?_, fun hj => ?_, fun w hw => (nomatch hw),
      fun w hw => (nomatch hw), fun hj => ?_, fun a ha => (nomatch ha)⟩
    · exact absurd hj (Nat.not_lt_zero j)
    · exact absurd hj (Nat.not_lt_zero j)
    · exact absurd hj (Nat.not_lt_zero j)
  · rintro s e s' hs _ hstep
    exact hs.step hthreads hstep

/-- A pool with a thread delivers every job exactly once, whatever the order of its steps. -/
theorem blocking_delivers (T W : Type) (threads : Nat) (hthreads : 0 < threads) (s : State T W)
    (h : (system T W threads).Reachable s) : s.Delivers threads :=
  (inv_of_reachable hthreads h).delivers hthreads

/-- `pool_size`. -/
def poolSize (shards : Nat) : Nat := min (max (shards * 4) 4) 512

/-- A job that is spawned and polled before a thread has taken it. -/
theorem blocking_delivers_polled :
    ((({} : State Nat Nat).spawn (poolSize 1) (some 4)).poll 0 7).Delivers (poolSize 1) := by
  refine blocking_delivers Nat Nat (poolSize 1) (by decide) _ ?_
  refine .step (.step (.start rfl) trivial (.spawn _ _)) trivial (.poll 7 ?_ rfl)
  exact Nat.zero_lt_one

end Kernway.Blocking
