import Kernway.Runs
import Kernway.Slab
import Mathlib.Data.List.Range

namespace Kernway.TaskSlab

/-- Where the executor's thread is: outside of a round, asleep, between two polls of a round, in the
poll of a task, or past it with the task's future being dropped. -/
inductive Point
  | idle
  | parked
  | draining
  | polling (task id : Nat)
  | dropping (task id : Nat)
  deriving DecidableEq

/-- An id in the wake queue, and the task that held it when it was queued. -/
structure Entry where
  id : Nat
  task : Option Nat
  deriving DecidableEq

/-- Tasks are numbered in the order they are spawned in; `ids` has the id of each. What is owed are
the tasks spawned or woken since their last poll began, and due in a round are those with an entry
among the drained ones. -/
structure State where
  slab : Slab Nat
  ready : List Entry
  buf : List Entry
  point : Point
  ids : List Nat
  dropped : List Nat
  finished : List Nat
  owed : List Nat
  due : List Nat

namespace State

def schedule (s : State) (id : Nat) : State :=
  { s with ready := s.ready ++ [⟨id, s.slab.get id⟩], owed := (s.slab.get id).toList ++ s.owed }

/-- `Handle::spawn`. -/
def spawn (s : State) : State :=
  let (slab, id) := s.slab.insert s.ids.length
  { s with slab := slab, ids := s.ids ++ [id] }.schedule id

def drainInto (s : State) : State :=
  { s with
    buf := s.buf ++ s.ready
    ready := []
    due := s.ready.filterMap Entry.task
    point := .draining }

/-- `poll_task` up to the poll of the future; a future that is gone counts as finished. -/
def pollTask (s : State) (id : Nat) : State :=
  match s.slab.get id with
  | none => s
  | some task =>
    if task ∈ s.dropped then
      { s with slab := s.slab.remove id, finished := s.finished ++ [task] }
    else { s with point := .polling task id, owed := s.owed.filter (· ≠ task) }

def taskCount (s : State) : Nat := s.slab.len

/-- A task that was spawned and that `poll_task` has not taken out. -/
def Unfinished (s : State) (task : Nat) : Prop := task < s.ids.length ∧ task ∉ s.finished

end State

inductive Event
  | spawn
  | wake (id : Nat)
  | drain
  | pop
  | pending
  | complete
  | remove
  | endRound
  | park
  | unpark
  deriving DecidableEq

/-- Tasks are spawned outside of rounds, in a poll, or by what a future drops; wakes come at any
time, from wakers of tasks that are there or gone. -/
def step (s : State) (e : Event) : Option State :=
  match e, s.point with
  | .spawn, .idle => some s.spawn
  | .spawn, .polling _ _ => some s.spawn
  | .spawn, .dropping _ _ => some s.spawn
  | .wake id, _ => if id ∈ s.ids then some (s.schedule id) else none
  | .drain, .idle => some s.drainInto
  | .pop, .draining =>
    match s.buf with
    | entry :: buf => some ({ s with buf := buf }.pollTask entry.id)
    | [] => none
  | .pending, .polling _ _ => some { s with point := .draining }
  | .complete, .polling task id =>
    some { s with dropped := s.dropped ++ [task], point := .dropping task id }
  | .remove, .dropping task id =>
    some { s with
      slab := s.slab.remove id, finished := s.finished ++ [task], point := .draining }
  | .endRound, .draining => if s.buf = [] then some { s with point := .idle } else none
  | .park, .idle => if s.ready = [] then some { s with point := .parked } else none
  | .unpark, .parked => some { s with point := .idle }
  | _, _ => none

def start : State := ⟨.empty, [], [], .idle, [], [], [], [], []⟩

def system : System State Event := ⟨fun s => s = start, fun s e s' => step s e = some s'⟩

/-- What a state says of the tasks. -/
structure Safe (s : State) : Prop where
  /-- No two unfinished tasks share an id. -/
  unique : ∀ n m, s.Unfinished n → s.Unfinished m → s.ids[n]? = s.ids[m]? → n = m
  count : s.taskCount = ((List.range s.ids.length).filter (· ∉ s.finished)).length
  /-- A task spawned or woken waits in this round or for the next one. -/
  queued : ∀ n, s.Unfinished n → n ∈ s.owed →
    ∃ entry ∈ s.buf ++ s.ready, s.ids[n]? = some entry.id ∧ s.slab.get entry.id = some n
  /-- None waits when the executor may park. -/
  parks : s.point = .idle → s.ready = [] → ∀ n, s.Unfinished n → n ∉ s.owed
  once : s.dropped.Nodup
  /-- A task that is polled has its future, and was woken before the round. -/
  polled : ∀ n id, s.point = .polling n id → n ∉ s.dropped ∧ n ∈ s.due
  /-- No finished task is found for a poll. -/
  found : ∀ id n, s.point = .draining → s.slab.get id = some n → n ∉ s.dropped

/-- No task is spawned into a slot whose id still waits in the round's buffer. -/
def Apart (s : State) : Event → Prop
  | .spawn => ∀ id, s.slab.free.head? = some id → ∀ entry ∈ s.buf, entry.id ≠ id
  | _ => True

/-- The task whose future is being dropped. -/
def Point.leaving : Point → List Nat
  | .dropping task _ => [task]
  | _ => []

/-- What holds in every run. -/
structure Inv (s : State) : Prop where
  wf : s.slab.WellFormed
  holds : ∀ id n, s.slab.get id = some n ↔ s.Unfinished n ∧ s.ids[n]? = some id
  given : ∀ id ∈ s.ids, id < s.slab.slots.length
  total : s.slab.len + s.finished.length = s.ids.length
  nodup : s.finished.Nodup
  bound : ∀ n ∈ s.finished, n < s.ids.length
  dropped : s.dropped = s.finished ++ s.point.leaving
  running : ∀ n id, s.point = .polling n id ∨ s.point = .dropping n id → s.slab.get id = some n
  outside : s.point = .idle ∨ s.point = .parked → s.buf = []
  known : ∀ entry ∈ s.buf ++ s.ready, entry.id ∈ s.ids
  queued : ∀ n, s.Unfinished n → n ∈ s.owed → ∃ entry ∈ s.buf ++ s.ready, s.ids[n]? = some entry.id
  origin : ∀ entry ∈ s.ready, ∀ n, s.slab.get entry.id = some n →
    ∃ own ∈ s.ready, own.task = some n

/-- What holds where no id is given out that waits in the buffer. -/
structure Timely (s : State) : Prop where
  buffered : ∀ entry ∈ s.buf, ∀ n, s.slab.get entry.id = some n → n ∈ s.due
  polled : ∀ n id, s.point = .polling n id → n ∈ s.due

section Invariants

variable {s : State}

theorem Inv.get_of_ids (h : Inv s) {n id : Nat} (hn : s.Unfinished n) (hid : s.ids[n]? = some id) :
    s.slab.get id = some n := (h.holds id n).mpr ⟨hn, hid⟩

theorem inv_start : Inv start where
  wf := Slab.wellFormed_empty
  holds id n := by
    constructor
    · intro h
      cases h
    · rintro ⟨⟨hlt, -⟩, -⟩
      cases hlt
  given id hid := by cases hid
  total := rfl
  nodup := List.nodup_nil
  bound n hn := by cases hn
  dropped := rfl
  running n id hp := by rcases hp with hp | hp <;> cases hp
  outside _ := rfl
  known entry hentry := by cases hentry
  queued n _ hn := by cases hn
  origin entry hentry := by cases hentry

/-- A wake queues the id, with the task that holds it. -/
theorem Inv.schedule (h : Inv s) {id : Nat} (hid : id ∈ s.ids) : Inv (s.schedule id) where
  wf := h.wf
  holds := h.holds
  given := h.given
  total := h.total
  nodup := h.nodup
  bound := h.bound
  dropped := h.dropped
  running := h.running
  outside := h.outside
  known := by
    intro entry hentry
    have hcases : entry ∈ s.buf ++ s.ready ∨ entry ∈ [⟨id, s.slab.get id⟩] := by
      rwa [← List.mem_append, List.append_assoc]
    rcases hcases with hold | hnew
    · exact h.known entry hold
    · rw [List.mem_singleton.mp hnew]
      exact hid
  queued := by
    intro n hn howed
    rcases List.mem_append.mp howed with hnow | hold
    · have hget : s.slab.get id = some n := Option.mem_toList.mp hnow
      refine ⟨⟨id, s.slab.get id⟩, ?_, ((h.holds id n).mp hget).2⟩
      exact List.mem_append_right _ (List.mem_append_right _ List.mem_cons_self)
    · obtain ⟨entry, hentry, hid'⟩ := h.queued n hn hold
      refine ⟨entry, ?_, hid'⟩
      rcases List.mem_append.mp hentry with hbuf | hready
      · exact List.mem_append_left _ hbuf
      · exact List.mem_append_right _ (List.mem_append_left _ hready)
  origin := by
    intro entry hentry n hget
    rcases List.mem_append.mp hentry with hold | hnew
    · obtain ⟨own, hown, htask⟩ := h.origin entry hold n hget
      exact ⟨own, List.mem_append_left _ hown, htask⟩
    · refine ⟨⟨id, s.slab.get id⟩, List.mem_append_right _ List.mem_cons_self, ?_⟩
      rw [List.mem_singleton.mp hnew] at hget
      exact hget

/-- The tasks behind a spawn: the new one and the old ones, each with its id. -/
theorem unfinished_spawn (h : Inv s) {n id : Nat} :
    s.spawn.Unfinished n ∧ s.spawn.ids[n]? = some id ↔
      n = s.ids.length ∧ id = (s.slab.insert s.ids.length).2 ∨
        s.Unfinished n ∧ s.ids[n]? = some id := by
  have hids : s.spawn.ids = s.ids ++ [(s.slab.insert s.ids.length).2] := rfl
  have hfinished : s.spawn.finished = s.finished := rfl
  unfold State.Unfinished
  rw [hids, hfinished, List.length_append, List.length_singleton]
  constructor
  · rintro ⟨⟨hlt, hnot⟩, hid⟩
    by_cases hnew : n = s.ids.length
    · rw [hnew, List.getElem?_concat_length] at hid
      exact .inl ⟨hnew, (Option.some.inj hid).symm⟩
    · have hold : n < s.ids.length := by omega
      rw [List.getElem?_append_left hold] at hid
      exact .inr ⟨⟨hold, hnot⟩, hid⟩
  · rintro (⟨rfl, rfl⟩ | ⟨⟨hlt, hnot⟩, hid⟩)
    · refine ⟨⟨Nat.lt_succ_self _, fun hin => Nat.lt_irrefl _ (h.bound _ hin)⟩, ?_⟩
      exact List.getElem?_concat_length
    · refine ⟨⟨Nat.lt_succ_of_lt hlt, hnot⟩, ?_⟩
      rwa [List.getElem?_append_left hlt]

theorem Inv.spawn (h : Inv s) : Inv s.spawn := by
  have hget := h.wf.get_insert s.ids.length
  have hfresh := h.wf.get_insert_id s.ids.length
  have hnew : (s.slab.insert s.ids.length).1.get (s.slab.insert s.ids.length).2 =
      some s.ids.length := by rw [hget, if_pos rfl]
  -- the id of a task that is there is not given out
  have hold : ∀ {id n}, s.slab.get id = some n → (s.slab.insert s.ids.length).1.get id = some n := by
    intro id n hn
    rw [hget, if_neg, hn]
    rintro rfl
    rw [hfresh] at hn
    cases hn
  have hown : s.spawn.ready = s.ready ++ [⟨(s.slab.insert s.ids.length).2, some s.ids.length⟩] := by
    rw [← hnew]
    rfl
  refine
    { wf := h.wf.insert _, holds := ?_, given := ?_, total := ?_, nodup := h.nodup, bound := ?_
      dropped := h.dropped, running := ?_, outside := h.outside, known := ?_, queued := ?_
      origin := ?_ }
  · intro id n
    refine Iff.trans ?_ (unfinished_spawn h).symm
    show (s.slab.insert s.ids.length).1.get id = some n ↔ _
    rw [hget]
    split
    next heq =>
      constructor
      · intro hn
        exact .inl ⟨(Option.some.inj hn).symm, heq⟩
      · rintro (⟨rfl, -⟩ | hn)
        · rfl
        · rw [heq, ← h.holds, hfresh] at hn
          cases hn
    next hne =>
      rw [h.holds]
      exact ⟨.inr, fun hn => hn.resolve_left fun hnew => hne hnew.2⟩
  · intro id hid
    rcases List.mem_append.mp hid with hin | hin
    · exact Nat.lt_of_lt_of_le (h.given id hin) (Slab.length_insert s.slab s.ids.length)
    · rw [List.mem_singleton.mp hin]
      exact Slab.lt_length_of_get hnew
  · have htotal := h.total
    have hlen := h.wf.len_insert s.ids.length
    show (s.slab.insert s.ids.length).1.len + s.finished.length = (s.ids ++ [_]).length
    rw [List.length_append, List.length_singleton]
    omega
  · intro n hn
    have hlt := h.bound n hn
    show n < (s.ids ++ [_]).length
    rw [List.length_append, List.length_singleton]
    omega
  · intro n id hp
    exact hold (h.running n id hp)
  · intro entry hentry
    have hcases : entry ∈ s.buf ++ s.ready ∨ entry.id = (s.slab.insert s.ids.length).2 := by
      rcases List.mem_append.mp hentry with hbuf | hready
      · exact .inl (List.mem_append_left _ hbuf)
      · rcases List.mem_append.mp hready with hin | hin
        · exact .inl (List.mem_append_right _ hin)
        · rw [List.mem_singleton.mp hin]
          exact .inr rfl
    rcases hcases with hin | heq
    · exact List.mem_append_left _ (h.known entry hin)
    · rw [heq]
      exact List.mem_append_right _ List.mem_cons_self
  · intro n hn howed
    have hids : s.spawn.ids = s.ids ++ [(s.slab.insert s.ids.length).2] := rfl
    by_cases heq : n = s.ids.length
    · refine ⟨⟨(s.slab.insert s.ids.length).2, some s.ids.length⟩, ?_, ?_⟩
      · rw [hown]
        exact List.mem_append_right _ (List.mem_append_right _ List.mem_cons_self)
      · rw [hids, heq]
        exact List.getElem?_concat_length
    · obtain ⟨hlt, hnot⟩ := hn
      rw [hids, List.length_append, List.length_singleton] at hlt
      have hlt' : n < s.ids.length := by omega
      have howed' : n ∈ s.owed := by
        rcases List.mem_append.mp howed with hin | hin
        · have hsome : (s.slab.insert s.ids.length).1.get (s.slab.insert s.ids.length).2 = some n :=
            Option.mem_toList.mp hin
          rw [hnew] at hsome
          exact absurd (Option.some.inj hsome).symm heq
        · exact hin
      obtain ⟨entry, hentry, hid⟩ := h.queued n ⟨hlt', hnot⟩ howed'
      refine ⟨entry, ?_, ?_⟩
      · rcases List.mem_append.mp hentry with hbuf | hready
        · exact List.mem_append_left _ hbuf
        · exact List.mem_append_right _ (List.mem_append_left _ hready)
      · rw [hids, List.getElem?_append_left hlt']
        exact hid
  · intro entry hentry n hn
    have hn' : (s.slab.insert s.ids.length).1.get entry.id = some n := hn
    rw [hown] at hentry ⊢
    rw [hget] at hn'
    split at hn'
    next =>
      refine ⟨_, List.mem_append_right _ List.mem_cons_self, ?_⟩
      exact hn'
    next hne =>
      rcases List.mem_append.mp hentry with hin | hin
      · obtain ⟨own, hmem, htask⟩ := h.origin entry hin n hn'
        exact ⟨own, List.mem_append_left _ hmem, htask⟩
      · rw [List.mem_singleton.mp hin] at hne
        exact absurd rfl hne

theorem Inv.drainInto (h : Inv s) (hpoint : s.point = .idle) : Inv s.drainInto where
  wf := h.wf
  holds := h.holds
  given := h.given
  total := h.total
  nodup := h.nodup
  bound := h.bound
  dropped := by
    have hdropped := h.dropped
    rwa [hpoint] at hdropped
  running n id hp := by rcases hp with hp | hp <;> cases hp
  outside hp := by rcases hp with hp | hp <;> cases hp
  known := by
    show ∀ entry ∈ s.buf ++ s.ready ++ [], entry.id ∈ s.ids
    rw [List.append_nil]
    exact h.known
  queued := by
    show ∀ n, s.Unfinished n → n ∈ s.owed →
      ∃ entry ∈ s.buf ++ s.ready ++ [], s.ids[n]? = some entry.id
    rw [List.append_nil]
    exact h.queued
  origin entry hentry := by cases hentry

/-- The point does not matter but for the task that it is about. -/
theorem Inv.at_point (h : Inv s) {point : Point} (hleaving : point.leaving = s.point.leaving)
    (hrunning : ∀ n id, point = .polling n id ∨ point = .dropping n id → s.slab.get id = some n)
    (hbuf : point = .idle ∨ point = .parked → s.buf = []) : Inv { s with point := point } where
  wf := h.wf
  holds := h.holds
  given := h.given
  total := h.total
  nodup := h.nodup
  bound := h.bound
  dropped := by
    show s.dropped = s.finished ++ point.leaving
    rw [hleaving]
    exact h.dropped
  running := hrunning
  outside := hbuf
  known := h.known
  queued := h.queued
  origin := h.origin

/-- Between two polls no finished task is in the slab. -/
theorem Inv.found (h : Inv s) (hpoint : s.point = .draining) {id n : Nat}
    (hget : s.slab.get id = some n) : n ∉ s.dropped := by
  have hdropped := h.dropped
  rw [hpoint] at hdropped
  rw [hdropped]
  intro hin
  rcases List.mem_append.mp hin with hin | hin
  · exact ((h.holds id n).mp hget).1.2 hin
  · cases hin

/-- An id of the buffer that no task holds any more is passed over. -/
theorem Inv.skip (h : Inv s) {entry : Entry} {buf : List Entry} (hpoint : s.point = .draining)
    (hbuf : s.buf = entry :: buf) (hget : s.slab.get entry.id = none) : Inv { s with buf := buf } where
  wf := h.wf
  holds := h.holds
  given := h.given
  total := h.total
  nodup := h.nodup
  bound := h.bound
  dropped := h.dropped
  running := h.running
  outside hp := by
    have hp' : s.point = .idle ∨ s.point = .parked := hp
    rw [hpoint] at hp'
    rcases hp' with hp' | hp' <;> cases hp'
  known other hother := by
    apply h.known
    rw [hbuf]
    exact List.mem_cons_of_mem entry hother
  queued := by
    intro n hn howed
    obtain ⟨other, hother, hid⟩ := h.queued n hn howed
    rw [hbuf] at hother
    rcases List.mem_cons.mp hother with rfl | hin
    · rw [h.get_of_ids hn hid] at hget
      cases hget
    · exact ⟨other, hin, hid⟩
  origin := h.origin

/-- The poll of a task settles what is owed to it. -/
theorem Inv.poll (h : Inv s) {entry : Entry} {buf : List Entry} (hpoint : s.point = .draining)
    (hbuf : s.buf = entry :: buf) {n : Nat} (hget : s.slab.get entry.id = some n) :
    Inv { s with
      buf := buf, point := .polling n entry.id, owed := s.owed.filter (· ≠ n) } where
  wf := h.wf
  holds := h.holds
  given := h.given
  total := h.total
  nodup := h.nodup
  bound := h.bound
  dropped := by
    have hdropped := h.dropped
    rwa [hpoint] at hdropped
  running m id hp := by
    rcases hp with hp | hp
    · obtain ⟨rfl, rfl⟩ := Point.polling.inj hp
      exact hget
    · cases hp
  outside hp := by rcases hp with hp | hp <;> cases hp
  known other hother := by
    apply h.known
    rw [hbuf]
    exact List.mem_cons_of_mem entry hother
  queued := by
    intro m hm howed
    obtain ⟨howed, hne⟩ := List.mem_filter.mp howed
    obtain ⟨other, hother, hid⟩ := h.queued m hm howed
    rw [hbuf] at hother
    rcases List.mem_cons.mp hother with rfl | hin
    · have heq := h.get_of_ids hm hid
      rw [hget] at heq
      obtain rfl := Option.some.inj heq
      simp at hne
    · exact ⟨other, hin, hid⟩
  origin := h.origin

theorem Inv.complete (h : Inv s) {n id : Nat} (hpoint : s.point = .polling n id) :
    Inv { s with dropped := s.dropped ++ [n], point := .dropping n id } where
  wf := h.wf
  holds := h.holds
  given := h.given
  total := h.total
  nodup := h.nodup
  bound := h.bound
  dropped := by
    have hdropped := h.dropped
    rw [hpoint] at hdropped
    show s.dropped ++ [n] = s.finished ++ [n]
    rw [hdropped]
    exact List.append_nil _ ▸ rfl
  running m id' hp := by
    rcases hp with hp | hp
    · cases hp
    · obtain ⟨rfl, rfl⟩ := Point.dropping.inj hp
      exact h.running _ _ (.inl hpoint)
  outside hp := by rcases hp with hp | hp <;> cases hp
  known := h.known
  queued := h.queued
  origin := h.origin

/-- A task that is taken out leaves its id to the next one. -/
theorem Inv.remove (h : Inv s) {n id : Nat} (hpoint : s.point = .dropping n id) :
    Inv { s with
      slab := s.slab.remove id, finished := s.finished ++ [n], point := .draining } := by
  have hget := h.running n id (.inr hpoint)
  obtain ⟨⟨hlt, hnot⟩, hid⟩ := (h.holds id n).mp hget
  have hunfinished : ∀ m, (m < s.ids.length ∧ m ∉ s.finished ++ [n]) ↔ s.Unfinished m ∧ m ≠ n := by
    intro m
    unfold State.Unfinished
    rw [List.mem_append, List.mem_singleton, not_or, and_assoc]
  have hold : ∀ {id' m}, (s.slab.remove id).get id' = some m → s.slab.get id' = some m := by
    intro id' m hm
    rw [Slab.get_remove] at hm
    split at hm
    next => cases hm
    next => exact hm
  refine
    { wf := h.wf.remove id, holds := ?_, given := ?_, total := ?_, nodup := ?_, bound := ?_
      dropped := ?_, running := ?_, outside := ?_, known := h.known, queued := ?_, origin := ?_ }
  · intro id' m
    show (s.slab.remove id).get id' = some m ↔
      (m < s.ids.length ∧ m ∉ s.finished ++ [n]) ∧ s.ids[m]? = some id'
    rw [hunfinished]
    constructor
    · intro hm
      have hm' := (h.holds id' m).mp (hold hm)
      refine ⟨⟨hm'.1, ?_⟩, hm'.2⟩
      rintro rfl
      have hsame : id = id' := Option.some.inj (hid.symm.trans hm'.2)
      rw [Slab.get_remove, if_pos hsame.symm] at hm
      cases hm
    · rintro ⟨⟨hm, hne⟩, hid'⟩
      have hm' := h.get_of_ids hm hid'
      rw [Slab.get_remove, if_neg, hm']
      rintro rfl
      rw [hget] at hm'
      exact hne (Option.some.inj hm').symm
  · intro id' hid'
    have hle := h.given id' hid'
    show id' < (s.slab.remove id).slots.length
    rwa [Slab.length_remove]
  · have htotal := h.total
    have hlen := h.wf.len_remove hget
    show (s.slab.remove id).len + (s.finished ++ [n]).length = s.ids.length
    rw [List.length_append, List.length_singleton]
    omega
  · refine List.nodup_append.mpr ⟨h.nodup, List.nodup_singleton n, ?_⟩
    intro a ha b hb heq
    rw [List.mem_singleton.mp hb] at heq
    exact hnot (heq ▸ ha)
  · intro m hm
    rcases List.mem_append.mp hm with hin | hin
    · exact h.bound m hin
    · rw [List.mem_singleton.mp hin]
      exact hlt
  · have hdropped := h.dropped
    rw [hpoint] at hdropped
    show s.dropped = s.finished ++ [n] ++ []
    rw [List.append_nil]
    exact hdropped
  · intro m id' hp
    rcases hp with hp | hp <;> cases hp
  · intro hp
    rcases hp with hp | hp <;> cases hp
  · intro m hm howed
    exact h.queued m ((hunfinished m).mp hm).1 howed
  · intro entry hentry m hm
    exact h.origin entry hentry m (hold hm)

end Invariants

section Steps

variable {s s' : State} {e : Event}

/-- What each step is, with the point that it is taken at. -/
theorem step_cases (h : step s e = some s') :
    (e = .spawn ∧ s' = s.spawn) ∨
    (∃ id, e = .wake id ∧ id ∈ s.ids ∧ s' = s.schedule id) ∨
    (e = .drain ∧ s.point = .idle ∧ s' = s.drainInto) ∨
    (∃ entry buf, e = .pop ∧ s.point = .draining ∧ s.buf = entry :: buf ∧
      s' = { s with buf := buf }.pollTask entry.id) ∨
    (∃ n id, e = .pending ∧ s.point = .polling n id ∧ s' = { s with point := .draining }) ∨
    (∃ n id, e = .complete ∧ s.point = .polling n id ∧
      s' = { s with dropped := s.dropped ++ [n], point := .dropping n id }) ∨
    (∃ n id, e = .remove ∧ s.point = .dropping n id ∧
      s' = { s with
        slab := s.slab.remove id, finished := s.finished ++ [n], point := .draining }) ∨
    (e = .endRound ∧ s.point = .draining ∧ s.buf = [] ∧ s' = { s with point := .idle }) ∨
    (e = .park ∧ s.point = .idle ∧ s' = { s with point := .parked }) ∨
    (e = .unpark ∧ s.point = .parked ∧ s' = { s with point := .idle }) := by
  unfold step at h
  split at h
  next => exact .inl ⟨rfl, (Option.some.inj h).symm⟩
  next => exact .inl ⟨rfl, (Option.some.inj h).symm⟩
  next => exact .inl ⟨rfl, (Option.some.inj h).symm⟩
  next _ id =>
    split at h
    next hid => exact .inr (.inl ⟨id, rfl, hid, (Option.some.inj h).symm⟩)
    next => cases h
  next hp => exact .inr (.inr (.inl ⟨rfl, hp, (Option.some.inj h).symm⟩))
  next hp =>
    split at h
    next entry buf hbuf =>
      exact .inr (.inr (.inr (.inl ⟨entry, buf, rfl, hp, hbuf, (Option.some.inj h).symm⟩)))
    next => cases h
  next n id hp =>
    exact .inr (.inr (.inr (.inr (.inl ⟨n, id, rfl, hp, (Option.some.inj h).symm⟩))))
  next n id hp =>
    exact .inr (.inr (.inr (.inr (.inr (.inl ⟨n, id, rfl, hp, (Option.some.inj h).symm⟩)))))
  next n id hp =>
    exact .inr (.inr (.inr (.inr (.inr (.inr (.inl ⟨n, id, rfl, hp, (Option.some.inj h).symm⟩))))))
  next hp =>
    split at h
    next hbuf =>
      exact .inr (.inr (.inr (.inr (.inr (.inr (.inr (.inl
        ⟨rfl, hp, hbuf, (Option.some.inj h).symm⟩)))))))
    next => cases h
  next hp =>
    split at h
    next =>
      exact .inr (.inr (.inr (.inr (.inr (.inr (.inr (.inr (.inl
        ⟨rfl, hp, (Option.some.inj h).symm⟩))))))))
    next => cases h
  next hp =>
    exact .inr (.inr (.inr (.inr (.inr (.inr (.inr (.inr (.inr
      ⟨rfl, hp, (Option.some.inj h).symm⟩))))))))
  next => cases h

/-- What `poll_task` does with the next id of the buffer: no finished task is found. -/
theorem pollTask_cases (h : Inv s) (hpoint : s.point = .draining) (entry : Entry)
    (buf : List Entry) :
    (s.slab.get entry.id = none ∧ { s with buf := buf }.pollTask entry.id = { s with buf := buf }) ∨
      ∃ n, s.slab.get entry.id = some n ∧ { s with buf := buf }.pollTask entry.id =
        { s with buf := buf, point := .polling n entry.id, owed := s.owed.filter (· ≠ n) } := by
  unfold State.pollTask
  cases hget : s.slab.get entry.id with
  | none => exact .inl ⟨rfl, rfl⟩
  | some n => exact .inr ⟨n, rfl, if_neg (h.found hpoint hget)⟩

theorem Inv.step (h : Inv s) (hstep : TaskSlab.step s e = some s') : Inv s' := by
  rcases step_cases hstep with ⟨-, rfl⟩ | ⟨id, -, hid, rfl⟩ | ⟨-, hp, rfl⟩ |
    ⟨entry, buf, -, hp, hbuf, rfl⟩ | ⟨n, id, -, hp, rfl⟩ | ⟨n, id, -, hp, rfl⟩ | ⟨n, id, -, hp, rfl⟩ |
    ⟨-, hp, hbuf, rfl⟩ | ⟨-, hp, rfl⟩ | ⟨-, hp, rfl⟩
  · exact h.spawn
  · exact h.schedule hid
  · exact h.drainInto hp
  · rcases pollTask_cases h hp entry buf with ⟨hget, heq⟩ | ⟨n, hget, heq⟩
    · rw [heq]
      exact h.skip hp hbuf hget
    · rw [heq]
      exact h.poll hp hbuf hget
  · refine h.at_point (by rw [hp]; rfl) ?_ ?_
    · intro m id' hm
      rcases hm with hm | hm <;> cases hm
    · intro hm
      rcases hm with hm | hm <;> cases hm
  · exact h.complete hp
  · exact h.remove hp
  · refine h.at_point (by rw [hp]; rfl) ?_ fun _ => hbuf
    intro m id' hm
    rcases hm with hm | hm <;> cases hm
  · refine h.at_point (by rw [hp]; rfl) ?_ fun _ => h.outside (.inl hp)
    intro m id' hm
    rcases hm with hm | hm <;> cases hm
  · refine h.at_point (by rw [hp]; rfl) ?_ fun _ => h.outside (.inr hp)
    intro m id' hm
    rcases hm with hm | hm <;> cases hm

/-- Where no id that waits in the buffer is given out, a round polls what it was woken for. -/
theorem Timely.step (h : Inv s) (ht : Timely s) (hok : Apart s e)
    (hstep : TaskSlab.step s e = some s') : Timely s' := by
  rcases step_cases hstep with ⟨rfl, rfl⟩ | ⟨id, -, hid, rfl⟩ | ⟨-, hp, rfl⟩ |
    ⟨entry, buf, -, hp, hbuf, rfl⟩ | ⟨n, id, -, hp, rfl⟩ | ⟨n, id, -, hp, rfl⟩ | ⟨n, id, -, hp, rfl⟩ |
    ⟨-, hp, hbuf, rfl⟩ | ⟨-, hp, rfl⟩ | ⟨-, hp, rfl⟩
  · refine ⟨fun entry hentry n hget => ?_, ht.polled⟩
    have hold : entry.id ≠ (s.slab.insert s.ids.length).2 := by
      rcases Slab.insert_id s.slab s.ids.length with hfree | hnew
      · exact hok _ hfree entry hentry
      · have hlt := h.given entry.id (h.known entry (List.mem_append_left _ hentry))
        omega
    have hget' : (s.slab.insert s.ids.length).1.get entry.id = some n := hget
    rw [h.wf.get_insert, if_neg hold] at hget'
    exact ht.buffered entry hentry n hget'
  · exact ⟨ht.buffered, ht.polled⟩
  · refine ⟨fun entry hentry n hget => ?_, fun n id hm => by cases hm⟩
    have hready : entry ∈ s.ready := by
      have hin : entry ∈ s.buf ++ s.ready := hentry
      rwa [h.outside (.inl hp), List.nil_append] at hin
    obtain ⟨own, hown, htask⟩ := h.origin entry hready n hget
    exact List.mem_filterMap.mpr ⟨own, hown, htask⟩
  · have hsub : ∀ other ∈ buf, other ∈ s.buf := by
      intro other hother
      rw [hbuf]
      exact List.mem_cons_of_mem entry hother
    rcases pollTask_cases h hp entry buf with ⟨hget, heq⟩ | ⟨n, hget, heq⟩
    · rw [heq]
      exact ⟨fun other hother => ht.buffered other (hsub other hother), ht.polled⟩
    · rw [heq]
      refine ⟨fun other hother => ht.buffered other (hsub other hother), ?_⟩
      intro m id hm
      obtain ⟨rfl, -⟩ := Point.polling.inj hm
      exact ht.buffered entry (by rw [hbuf]; exact List.mem_cons_self) _ hget
  · exact ⟨ht.buffered, fun m id' hm => by cases hm⟩
  · exact ⟨ht.buffered, fun m id' hm => by cases hm⟩
  · refine ⟨fun entry hentry m hget => ?_, fun m id' hm => by cases hm⟩
    have hget' : (s.slab.remove id).get entry.id = some m := hget
    rw [Slab.get_remove] at hget'
    split at hget'
    next => cases hget'
    next => exact ht.buffered entry hentry m hget'
  · exact ⟨ht.buffered, fun m id' hm => by cases hm⟩
  · exact ⟨ht.buffered, fun m id' hm => by cases hm⟩
  · exact ⟨ht.buffered, fun m id' hm => by cases hm⟩

theorem timely_start : Timely start where
  buffered entry hentry := by cases hentry
  polled n id hp := by cases hp

theorem Inv.safe (h : Inv s) (ht : Timely s) : Safe s where
  unique n m hn hm hid := by
    obtain ⟨id, hsome⟩ : ∃ id, s.ids[n]? = some id := ⟨_, List.getElem?_eq_getElem hn.1⟩
    have hgetn := h.get_of_ids hn hsome
    have hgetm := h.get_of_ids hm (hid ▸ hsome)
    rw [hgetn] at hgetm
    exact Option.some.inj hgetm
  count := by
    have hfinished : ((List.range s.ids.length).filter (· ∈ s.finished)).length =
        s.finished.length := by
      apply List.Perm.length_eq
      apply (List.perm_ext_iff_of_nodup (List.nodup_range.filter _) h.nodup).mpr
      intro n
      rw [List.mem_filter, List.mem_range, decide_eq_true_iff]
      exact ⟨fun hin => hin.2, fun hin => ⟨h.bound n hin, hin⟩⟩
    have hsplit := List.length_eq_length_filter_add (l := List.range s.ids.length)
      (fun n => decide (n ∈ s.finished))
    have hnot : (List.range s.ids.length).filter (fun n => !decide (n ∈ s.finished)) =
        (List.range s.ids.length).filter (· ∉ s.finished) := by
      apply List.filter_congr
      intro n _
      rw [decide_not]
    have htotal := h.total
    rw [hnot, List.length_range, hfinished] at hsplit
    unfold State.taskCount
    omega
  queued n hn howed := by
    obtain ⟨entry, hentry, hid⟩ := h.queued n hn howed
    exact ⟨entry, hentry, hid, h.get_of_ids hn hid⟩
  parks hp hready n hn howed := by
    obtain ⟨entry, hentry, -⟩ := h.queued n hn howed
    rw [h.outside (.inl hp), hready] at hentry
    cases hentry
  once := by
    rw [h.dropped]
    cases hp : s.point with
    | dropping n id =>
      have hget := h.running n id (.inr hp)
      refine List.nodup_append.mpr ⟨h.nodup, List.nodup_singleton n, ?_⟩
      intro a ha b hb heq
      rw [List.mem_singleton.mp hb] at heq
      exact ((h.holds id n).mp hget).1.2 (heq ▸ ha)
    | _ => exact (List.append_nil s.finished).symm ▸ h.nodup
  polled n id hp := by
    refine ⟨?_, ht.polled n id hp⟩
    have hget := h.running n id (.inl hp)
    rw [h.dropped, hp]
    intro hin
    rcases List.mem_append.mp hin with hin | hin
    · exact ((h.holds id n).mp hget).1.2 hin
    · cases hin
  found id n hp hget := h.found hp hget

end Steps

/-- In every run that gives out no id while it waits in a round's buffer, unfinished tasks have their
own ids and are counted, who is spawned or woken waits for a poll before the executor parks, a
finished future is dropped once and not polled again, and a round polls only whom it found woken. -/
theorem safe_of_apart (s : State) (h : system.Reach Apart s) : Safe s := by
  have hstart : ∀ s, system.start s → Inv s ∧ Timely s := by
    rintro s rfl
    exact ⟨inv_start, timely_start⟩
  have hstep : ∀ s e s', Inv s ∧ Timely s → Apart s e → system.step s e s' → Inv s' ∧ Timely s' := by
    rintro s e s' ⟨hinv, htimely⟩ hok hstep
    exact ⟨hinv.step hstep, htimely.step hinv hok hstep⟩
  have hboth : Inv s ∧ Timely s :=
    @System.Reach.invariant _ _ _ _ (fun s => Inv s ∧ Timely s) hstart hstep _ h
  exact hboth.1.safe hboth.2

theorem safe_of_apart_spawn : Safe start.spawn := by
  have hstart : system.Reach Apart start := .start rfl
  have hapart : Apart start .spawn := by
    intro id hid
    cases hid
  exact safe_of_apart start.spawn (hstart.step hapart rfl)

/-- The state after these events. -/
def after (events : List Event) : Option State := events.foldlM step start

theorem reachable_after {events : List Event} {s : State} (h : after events = some s) :
    system.Reachable s := by
  suffices hrun : ∀ s₀, system.Reachable s₀ → events.foldlM step s₀ = some s → system.Reachable s from
    hrun start (.start rfl) h
  clear h
  induction events with
  | nil =>
    intro s₀ h₀ hs
    obtain rfl : s₀ = s := Option.some.inj hs
    exact h₀
  | cons e events ih =>
    intro s₀ h₀ hs
    obtain ⟨s₁, hone, hrest⟩ := Option.bind_eq_some_iff.mp hs
    exact ih s₁ (h₀.step trivial hone) hrest

/-- A task that was woken twice finishes, another one spawns in the same round, and the round polls
the new task under the second wake. -/
def recycled : List Event :=
  [.spawn, .spawn, .wake 0, .drain, .pop, .complete, .remove, .pop, .spawn, .pending, .pop]

theorem not_safe_recycled : ∃ s, system.Reachable s ∧ after recycled = some s ∧
    s.point = .polling 2 0 ∧ 2 ∉ s.due ∧ ¬ Safe s := by
  obtain ⟨s, hs⟩ := Option.isSome_iff_exists.mp (by decide : (after recycled).isSome = true)
  have hpoint : (after recycled).map State.point = some (.polling 2 0) := by decide
  have hdue : (after recycled).map State.due = some [0, 1, 0] := by decide
  rw [hs] at hpoint hdue
  have hpoint' : s.point = .polling 2 0 := Option.some.inj hpoint
  have hnot : 2 ∉ s.due := by
    have heq : s.due = [0, 1, 0] := Option.some.inj hdue
    rw [heq]
    decide
  exact ⟨s, reachable_after hs, hs, hpoint', hnot, fun h => hnot (h.polled 2 0 hpoint').2⟩

end Kernway.TaskSlab
