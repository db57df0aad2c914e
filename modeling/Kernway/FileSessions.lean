import Mathlib.Logic.Function.Basic
import Kernway.Runs
import Kernway.SessionRecovery

namespace Kernway

def checkpointEvery : Nat := 2000

inductive Task
  | idle
  /-- The registry has it, under this number; the log does not. -/
  | updated (number : Nat) (op : SessionOp)
  | appending
  | logged
  | resetting
  | snapshotting
  /-- A snapshot of the first `number` writes is taken, not sent. -/
  | snapshotted (number : Nat) (snapshot : Bytes)
  | checkpointing

/-- What the writer thread is sent, with the task that waits for it. -/
inductive Cmd
  | append (record : Bytes) (task : Nat)
  | checkpoint (snapshot : Bytes) (task : Nat)

def Cmd.task : Cmd → Nat
  | append _ task => task
  | checkpoint _ task => task

/-- The files once the writer has served a command, or `none` where it fails. -/
def Cmd.run (disk : Disk) : Cmd → Option Disk
  | append record _ => disk.append record
  | checkpoint snapshot _ => some (disk.checkpoint snapshot)

def Cmd.after (disk : Disk) (cmd : Cmd) : Disk := (cmd.run disk).getD disk

/-- The store with its writer and its tasks. The writes that the registry has are numbered in its
order; `pending` are those whose record has not been sent. -/
structure FileBackedSessionStore where
  inner : MemorySessionStore := ∅
  sinceCheckpoint : Nat := 0
  queue : List Cmd := []
  disk : Disk := {}
  tasks : Nat → Task := fun _ => .idle
  done : Nat → Option Bool := fun _ => none
  updates : Nat := 0
  pending : List (Nat × SessionOp) := []

namespace FileBackedSessionStore

/-- `FileBackedSessionStore::open`. -/
def opened (disk : Disk) : FileBackedSessionStore := { disk, inner := replay disk.load }

/-- The files once the writer has served its queue, as a shutdown leaves them. -/
def shutdown (s : FileBackedSessionStore) : Disk := s.queue.foldl Cmd.after s.disk

/-- Once every task is done, opening the files gives the registry again. -/
def Durable (s : FileBackedSessionStore) : Prop :=
  (∀ t, s.tasks t = .idle) → ∀ k, recovered s.shutdown k = s.inner.lookup k

end FileBackedSessionStore

inductive FileEvent
  | update (t : Nat) (op : SessionOp)
  | sendAppend (t : Nat)
  | appended (t : Nat)
  | count (t : Nat)
  | reset (t : Nat)
  | snapshot (t : Nat)
  | sendCheckpoint (t : Nat)
  | checkpointed (t : Nat)
  | write
  | restart

open FileBackedSessionStore in
inductive FileStep : FileBackedSessionStore → FileEvent → FileBackedSessionStore → Prop
  | update {s t op} : s.tasks t = .idle →
    FileStep s (.update t op)
      { s with
        inner := op.apply s.inner
        tasks := Function.update s.tasks t (.updated s.updates op)
        updates := s.updates + 1
        pending := s.pending ++ [(s.updates, op)] }
  | sendAppend {s t i op} : s.tasks t = .updated i op →
    FileStep s (.sendAppend t)
      { s with
        queue := s.queue ++ [.append (recordOf op) t]
        tasks := Function.update s.tasks t .appending
        done := Function.update s.done t none
        pending := s.pending.filter (·.1 ≠ i) }
  | appended {s t ok} : s.tasks t = .appending → s.done t = some ok →
    FileStep s (.appended t)
      { s with tasks := Function.update s.tasks t (if ok then .logged else .idle) }
  | count {s t} : s.tasks t = .logged →
    FileStep s (.count t)
      { s with
        sinceCheckpoint := s.sinceCheckpoint + 1
        tasks := Function.update s.tasks t
          (if checkpointEvery ≤ s.sinceCheckpoint + 1 then .resetting else .idle) }
  | reset {s t} : s.tasks t = .resetting →
    FileStep s (.reset t)
      { s with sinceCheckpoint := 0, tasks := Function.update s.tasks t .snapshotting }
  | snapshot {s t entries} : s.tasks t = .snapshotting → entries.Perm s.inner.entries →
    FileStep s (.snapshot t)
      { s with
        tasks := Function.update s.tasks t (.snapshotted s.updates (snapshotBytes entries)) }
  | sendCheckpoint {s t i snapshot} : s.tasks t = .snapshotted i snapshot →
    FileStep s (.sendCheckpoint t)
      { s with
        queue := s.queue ++ [.checkpoint snapshot t]
        tasks := Function.update s.tasks t .checkpointing
        done := Function.update s.done t none }
  | checkpointed {s t ok} : s.tasks t = .checkpointing → s.done t = some ok →
    FileStep s (.checkpointed t) { s with tasks := Function.update s.tasks t .idle }
  | write {s cmd queue} : s.queue = cmd :: queue →
    FileStep s .write
      { s with
        queue
        disk := cmd.after s.disk
        done := Function.update s.done cmd.task (some (cmd.run s.disk).isSome) }
  | restart {s} : (∀ t, s.tasks t = .idle) → FileStep s .restart (opened s.shutdown)

/-- The store from any files that end with a whole record on, restarted once its tasks are done. -/
def fileSystem : System FileBackedSessionStore FileEvent where
  start s := ∃ disk, tornTail disk.wal = [] ∧ s = .opened disk
  step := FileStep

/-- A write is sent to the log before an earlier one only where the two commute, a checkpoint only
while the writes since its snapshot are all still to be sent, and an insert fits the log. -/
def Ordered (s : FileBackedSessionStore) : FileEvent → Prop
  | .update _ op => op.Fits
  | .sendAppend t => ∀ i op, s.tasks t = .updated i op →
    ∀ p ∈ s.pending, p.1 < i → p.2.Commutes op
  | .sendCheckpoint t => ∀ n snapshot, s.tasks t = .snapshotted n snapshot →
    ∀ i, n ≤ i → i < s.updates → i ∈ s.pending.map Prod.fst
  | _ => True

section Pending

variable {pending : List (Nat × SessionOp)}

/-- A write taken out of those pending, past the earlier ones it commutes with. -/
theorem runOn_pending (hs : pending.Pairwise (·.1 < ·.1)) {i : Nat} {op : SessionOp}
    (h : (i, op) ∈ pending) (hc : ∀ p ∈ pending, p.1 < i → p.2.Commutes op) (k : Text)
    (v : Option SessionRecord) :
    runOn (pending.map Prod.snd) k v =
      runOn ((pending.filter (·.1 ≠ i)).map Prod.snd) k (op.on k v) := by
  obtain ⟨before, later, rfl⟩ := List.append_of_mem h
  obtain ⟨-, hlater, hbefore⟩ := List.pairwise_append.mp hs
  have hb : ∀ p ∈ before, p.1 < i := fun p hp => hbefore p hp (i, op) (List.mem_cons_self ..)
  have hl : ∀ p ∈ later, i < p.1 := (List.pairwise_cons.mp hlater).1
  have hfb : before.filter (·.1 ≠ i) = before :=
    List.filter_eq_self.mpr fun p hp => by simpa using Nat.ne_of_lt (hb p hp)
  have hfl : later.filter (·.1 ≠ i) = later :=
    List.filter_eq_self.mpr fun p hp => by simpa using Nat.ne_of_gt (hl p hp)
  rw [List.filter_append, List.filter_cons_of_neg (by simp), hfb, hfl, List.map_append,
    List.map_append, List.map_cons]
  apply runOn_move
  intro a ha
  obtain ⟨p, hp, rfl⟩ := List.mem_map.mp ha
  exact hc p (List.mem_append_left _ hp) (hb p hp)

/-- Writes in order, those numbered below `n` first. -/
theorem filter_lt_append_filter_le (hs : pending.Pairwise (·.1 < ·.1)) (n : Nat) :
    pending.filter (·.1 < n) ++ pending.filter (n ≤ ·.1) = pending := by
  induction pending with
  | nil => rfl
  | cons p pending ih =>
    obtain ⟨hp, hs⟩ := List.pairwise_cons.mp hs
    by_cases hn : p.1 < n
    · rw [List.filter_cons_of_pos (by simpa using hn), List.filter_cons_of_neg (by simpa using hn),
        List.cons_append, ih hs]
    · have hnone : pending.filter (·.1 < n) = [] :=
        List.filter_eq_nil_iff.mpr fun q hq => by have := hp q hq; simp only [decide_eq_true_eq]; omega
      have hall : pending.filter (n ≤ ·.1) = pending :=
        List.filter_eq_self.mpr fun q hq => by have := hp q hq; simp only [decide_eq_true_eq]; omega
      rw [List.filter_cons_of_neg (by simpa using hn),
        List.filter_cons_of_pos (by simpa using Nat.le_of_not_lt hn), hnone, hall, List.nil_append]

end Pending

/-- Each pending write is held by one task, and no task holds another. -/
structure Held (tasks : Nat → Task) (pending : List (Nat × SessionOp)) : Prop where
  held : ∀ p ∈ pending, ∃ t, tasks t = .updated p.1 p.2
  holds : ∀ t i op, tasks t = .updated i op → (i, op) ∈ pending
  alone : ∀ t t' i op op', tasks t = .updated i op → tasks t' = .updated i op' → t = t'

namespace Held

variable {tasks : Nat → Task} {pending : List (Nat × SessionOp)} {t : Nat}

theorem move (h : Held tasks pending) {task : Task} (hold : ∀ i op, tasks t ≠ .updated i op)
    (hnew : ∀ i op, task ≠ .updated i op) : Held (Function.update tasks t task) pending := by
  have hiff : ∀ t' i op,
      Function.update tasks t task t' = .updated i op ↔ tasks t' = .updated i op := by
    intro t' i op
    by_cases heq : t' = t
    · subst heq
      rw [Function.update_self]
      exact iff_of_false (hnew i op) (hold i op)
    · rw [Function.update_of_ne heq]
  exact ⟨fun p hp => (h.held p hp).imp fun t' => (hiff t' ..).mpr,
    fun t' i op ht' => h.holds t' i op ((hiff ..).mp ht'),
    fun t₁ t₂ i op op' h₁ h₂ => h.alone t₁ t₂ i op op' ((hiff ..).mp h₁) ((hiff ..).mp h₂)⟩

theorem take (h : Held tasks pending) (ht : tasks t = .idle) {n : Nat}
    (hn : ∀ p ∈ pending, p.1 < n) (op : SessionOp) :
    Held (Function.update tasks t (.updated n op)) (pending ++ [(n, op)]) := by
  have hother : ∀ t' i op', t' ≠ t →
      Function.update tasks t (.updated n op) t' = .updated i op' → (i, op') ∈ pending :=
    fun t' i op' hne ht' => h.holds t' i op' (by rwa [Function.update_of_ne hne] at ht')
  have hself : ∀ i op', Function.update tasks t (.updated n op) t = .updated i op' →
      n = i ∧ op = op' := by simp
  refine ⟨fun p hp => ?_, fun t' i op' ht' => ?_, fun t₁ t₂ i op₁ op₂ h₁ h₂ => ?_⟩
  · rcases List.mem_append.mp hp with hp | hp
    · obtain ⟨t', ht'⟩ := h.held p hp
      have hne : t' ≠ t := by
        rintro rfl
        exact nomatch ht.symm.trans ht'
      exact ⟨t', by rwa [Function.update_of_ne hne]⟩
    · cases List.mem_singleton.mp hp
      exact ⟨t, Function.update_self ..⟩
  · by_cases heq : t' = t
    · subst heq
      obtain ⟨rfl, rfl⟩ := hself i op' ht'
      exact List.mem_append_right _ (List.mem_singleton.mpr rfl)
    · exact List.mem_append_left _ (hother t' i op' heq ht')
  · by_cases heq₁ : t₁ = t <;> by_cases heq₂ : t₂ = t
    · rw [heq₁, heq₂]
    · subst heq₁
      obtain ⟨rfl, -⟩ := hself i op₁ h₁
      exact absurd (hn _ (hother t₂ n op₂ heq₂ h₂)) (Nat.lt_irrefl n)
    · subst heq₂
      obtain ⟨rfl, -⟩ := hself i op₂ h₂
      exact absurd (hn _ (hother t₁ n op₁ heq₁ h₁)) (Nat.lt_irrefl n)
    · rw [Function.update_of_ne heq₁] at h₁
      rw [Function.update_of_ne heq₂] at h₂
      exact h.alone t₁ t₂ i op₁ op₂ h₁ h₂

theorem drop (h : Held tasks pending) {i : Nat} {op : SessionOp} (ht : tasks t = .updated i op)
    {task : Task} (hnew : ∀ i op, task ≠ .updated i op) :
    Held (Function.update tasks t task) (pending.filter (·.1 ≠ i)) := by
  have hother : ∀ t' j op', Function.update tasks t task t' = .updated j op' →
      t' ≠ t ∧ tasks t' = .updated j op' := by
    intro t' j op' ht'
    by_cases heq : t' = t
    · subst heq
      exact absurd (by rwa [Function.update_self] at ht') (hnew j op')
    · exact ⟨heq, by rwa [Function.update_of_ne heq] at ht'⟩
  refine ⟨fun p hp => ?_, fun t' j op' ht' => ?_, fun t₁ t₂ j op₁ op₂ h₁ h₂ =>
    h.alone t₁ t₂ j op₁ op₂ (hother _ _ _ h₁).2 (hother _ _ _ h₂).2⟩
  · obtain ⟨hp, hpi⟩ := List.mem_filter.mp hp
    obtain ⟨t', ht'⟩ := h.held p hp
    have hne : t' ≠ t := by
      rintro rfl
      cases ht.symm.trans ht'
      simp at hpi
    exact ⟨t', by rwa [Function.update_of_ne hne]⟩
  · obtain ⟨hne, ht'⟩ := hother t' j op' ht'
    refine List.mem_filter.mpr ⟨h.holds t' j op' ht', ?_⟩
    have hji : j ≠ i := by
      rintro rfl
      exact hne (h.alone t' t j op' op ht' ht)
    simpa using hji

end Held

namespace FileBackedSessionStore

/-- A snapshot taken when the registry had `n` writes: those of them not sent yet have been
applied last, and unless a later one has been sent, the later ones lead from it to the registry. -/
structure Snapshot (s : FileBackedSessionStore) (n : Nat) (snapshot : Bytes) : Prop where
  taken : n ≤ s.updates
  before : ∀ k, ∃ v, recovered ⟨some snapshot, []⟩ k =
    runOn ((s.pending.filter (·.1 < n)).map Prod.snd) k v
  since : (∀ i, n ≤ i → i < s.updates → i ∈ s.pending.map Prod.fst) → ∀ k,
    runOn ((s.pending.filter (n ≤ ·.1)).map Prod.snd) k (recovered ⟨some snapshot, []⟩ k) =
      s.inner.lookup k

/-- The pending writes lead from what is on its way to disk to the registry. -/
structure Inv (s : FileBackedSessionStore) : Prop where
  whole : tornTail s.shutdown.wal = []
  ahead : ∀ k, runOn (s.pending.map Prod.snd) k (recovered s.shutdown k) = s.inner.lookup k
  fits : ∀ k, FitsOn k (s.inner.lookup k)
  pendingFits : ∀ p ∈ s.pending, p.2.Fits
  sorted : s.pending.Pairwise (·.1 < ·.1)
  below : ∀ p ∈ s.pending, p.1 < s.updates
  held : Held s.tasks s.pending
  taken : ∀ t n snapshot, s.tasks t = .snapshotted n snapshot → s.Snapshot n snapshot

theorem shutdown_append (s : FileBackedSessionStore) (cmd : Cmd) :
    (s.queue ++ [cmd]).foldl Cmd.after s.disk = cmd.after s.shutdown := by
  rw [List.foldl_append]
  rfl

theorem inv_opened {disk : Disk} (h : tornTail disk.wal = []) : (opened disk).Inv where
  whole := h
  ahead _ := rfl
  fits := fitsOn_recovered disk
  pendingFits := by simp [opened]
  sorted := by simp [opened]
  below := by simp [opened]
  held := ⟨by simp [opened], by simp [opened], by simp [opened]⟩
  taken := by simp [opened]

theorem snapshotted_update {s : FileBackedSessionStore} {t : Nat} {task : Task}
    (h : ∀ t n snapshot, s.tasks t = .snapshotted n snapshot → s.Snapshot n snapshot)
    (hnew : ∀ n snapshot, task = .snapshotted n snapshot → s.Snapshot n snapshot)
    {t' n : Nat} {snapshot : Bytes}
    (ht' : Function.update s.tasks t task t' = .snapshotted n snapshot) :
    s.Snapshot n snapshot := by
  by_cases heq : t' = t
  · subst heq
    exact hnew n snapshot (by rwa [Function.update_self] at ht')
  · exact h t' n snapshot (by rwa [Function.update_of_ne heq] at ht')

/-- A task moves on that neither held a write nor gets one. -/
theorem Inv.move {s : FileBackedSessionStore} (h : s.Inv) {t : Nat} {task : Task}
    (hold : ∀ i op, s.tasks t ≠ .updated i op) (hnew : ∀ i op, task ≠ .updated i op)
    (hsnap : ∀ n snapshot, task = .snapshotted n snapshot → s.Snapshot n snapshot)
    (sinceCheckpoint : Nat) :
    Inv { s with sinceCheckpoint, tasks := Function.update s.tasks t task } where
  whole := h.whole
  ahead := h.ahead
  fits := h.fits
  pendingFits := h.pendingFits
  sorted := h.sorted
  below := h.below
  held := h.held.move hold hnew
  taken _ _ _ ht' :=
    have hs := snapshotted_update h.taken hsnap ht'
    ⟨hs.taken, hs.before, hs.since⟩

/-- The snapshot of a write not yet sent. -/
theorem Snapshot.update {s : FileBackedSessionStore} {n : Nat} {snapshot : Bytes}
    (h : s.Snapshot n snapshot) (tasks : Nat → Task) (op : SessionOp) :
    Snapshot { s with
      inner := op.apply s.inner
      tasks
      updates := s.updates + 1
      pending := s.pending ++ [(s.updates, op)] } n snapshot := by
  have hlt : (s.pending ++ [(s.updates, op)]).filter (·.1 < n) = s.pending.filter (·.1 < n) := by
    rw [List.filter_append, List.filter_cons_of_neg (by simpa using h.taken), List.filter_nil,
      List.append_nil]
  have hle : (s.pending ++ [(s.updates, op)]).filter (n ≤ ·.1) =
      s.pending.filter (n ≤ ·.1) ++ [(s.updates, op)] := by
    rw [List.filter_append, List.filter_cons_of_pos (by simpa using h.taken), List.filter_nil]
  refine ⟨Nat.le_succ_of_le h.taken, by simpa only [hlt] using h.before, fun hall k => ?_⟩
  have hall' : ∀ i, n ≤ i → i < s.updates → i ∈ s.pending.map Prod.fst := by
    intro i hn hi
    have hmem := hall i hn (Nat.lt_succ_of_lt hi)
    rw [List.map_append, List.mem_append] at hmem
    exact hmem.resolve_right (by simpa using Nat.ne_of_lt hi)
  simp only [hle, List.map_append, runOn_append, SessionOp.lookup_apply, ← h.since hall' k]
  rfl

theorem Inv.update {s : FileBackedSessionStore} (h : s.Inv) {t : Nat} (ht : s.tasks t = .idle)
    {op : SessionOp} (hop : op.Fits) :
    Inv { s with
      inner := op.apply s.inner
      tasks := Function.update s.tasks t (.updated s.updates op)
      updates := s.updates + 1
      pending := s.pending ++ [(s.updates, op)] } where
  whole := h.whole
  ahead k := by
    simp only [List.map_append, runOn_append, SessionOp.lookup_apply, ← h.ahead k]
    rfl
  fits k := by
    simp only [SessionOp.lookup_apply]
    exact hop.on (h.fits k)
  pendingFits p hp := by
    rcases List.mem_append.mp hp with hp | hp
    · exact h.pendingFits p hp
    · cases List.mem_singleton.mp hp
      exact hop
  sorted := List.pairwise_append.mpr ⟨h.sorted, List.pairwise_singleton _ _, fun p hp q hq => by
    cases List.mem_singleton.mp hq
    exact h.below p hp⟩
  below p hp := by
    rcases List.mem_append.mp hp with hp | hp
    · exact Nat.lt_succ_of_lt (h.below p hp)
    · cases List.mem_singleton.mp hp
      exact Nat.lt_succ_self _
  held := h.held.take ht h.below op
  taken t' n snapshot ht' := (snapshotted_update h.taken (by simp) ht').update _ op

/-- The snapshot when a pending write is sent, past the earlier ones it commutes with. -/
theorem Snapshot.sendAppend {s : FileBackedSessionStore} {n : Nat} {snapshot : Bytes}
    (h : s.Snapshot n snapshot) (hsorted : s.pending.Pairwise (·.1 < ·.1)) {i : Nat}
    {op : SessionOp} (hmem : (i, op) ∈ s.pending) (hi : i < s.updates)
    (hc : ∀ p ∈ s.pending, p.1 < i → p.2.Commutes op) (queue : List Cmd) (tasks : Nat → Task)
    (done : Nat → Option Bool) :
    Snapshot { s with queue, tasks, done, pending := s.pending.filter (·.1 ≠ i) } n snapshot := by
  have hcomm : ∀ keep : Nat × SessionOp → Bool, (s.pending.filter (·.1 ≠ i)).filter keep =
      (s.pending.filter keep).filter (·.1 ≠ i) := fun keep => List.filter_comm ..
  refine ⟨h.taken, fun k => ?_, fun hall k => ?_⟩
  · obtain ⟨v, hv⟩ := h.before k
    simp only [hcomm]
    by_cases hin : i < n
    · refine ⟨op.on k v, ?_⟩
      rw [hv]
      exact runOn_pending (hsorted.filter _) (List.mem_filter.mpr ⟨hmem, by simpa using hin⟩)
        (fun p hp => hc p (List.mem_of_mem_filter hp)) k v
    · have hself : (s.pending.filter (·.1 < n)).filter (·.1 ≠ i) = s.pending.filter (·.1 < n) :=
        List.filter_eq_self.mpr fun p hp => by
          have := (List.mem_filter.mp hp).2
          simp only [decide_eq_true_eq] at this ⊢
          omega
      exact ⟨v, by rw [hself, hv]⟩
  · by_cases hin : n ≤ i
    · -- the write just sent is one of those since the snapshot
      have hgone := hall i hin hi
      obtain ⟨p, hp, hpi⟩ := List.mem_map.mp hgone
      simp [hpi] at hp
    · have hself : (s.pending.filter (n ≤ ·.1)).filter (·.1 ≠ i) = s.pending.filter (n ≤ ·.1) :=
        List.filter_eq_self.mpr fun p hp => by
          have := (List.mem_filter.mp hp).2
          simp only [decide_eq_true_eq] at this ⊢
          omega
      simp only [hcomm, hself]
      refine h.since (fun j hj hju => ?_) k
      obtain ⟨p, hp, hpj⟩ := List.mem_map.mp (hall j hj hju)
      exact List.mem_map.mpr ⟨p, List.mem_of_mem_filter hp, hpj⟩

theorem Inv.sendAppend {s : FileBackedSessionStore} (h : s.Inv) {t i : Nat} {op : SessionOp}
    (ht : s.tasks t = .updated i op) (hc : ∀ p ∈ s.pending, p.1 < i → p.2.Commutes op) :
    Inv { s with
      queue := s.queue ++ [.append (recordOf op) t]
      tasks := Function.update s.tasks t .appending
      done := Function.update s.done t none
      pending := s.pending.filter (·.1 ≠ i) } := by
  have hmem := h.held.holds t i op ht
  have hfit : op.Fits := h.pendingFits _ hmem
  have hshut : ∀ tasks done pending, shutdown { s with
      queue := s.queue ++ [.append (recordOf op) t], tasks, done, pending } = s.shutdown.log op :=
    fun _ _ _ => shutdown_append s _
  refine ⟨?_, fun k => ?_, h.fits, fun p hp => h.pendingFits p (List.mem_of_mem_filter hp),
    h.sorted.filter _, fun p hp => h.below p (List.mem_of_mem_filter hp),
    h.held.drop ht (by simp), fun t' n snapshot ht' =>
      (snapshotted_update h.taken (by simp) ht').sendAppend h.sorted hmem (h.below _ hmem) hc ..⟩
  · rw [hshut]
    exact tornTail_log op h.whole
  · rw [hshut, recovered_log h.whole hfit, ← runOn_pending h.sorted hmem hc]
    exact h.ahead k

theorem Inv.sendCheckpoint {s : FileBackedSessionStore} (h : s.Inv) {t n : Nat} {snapshot : Bytes}
    (ht : s.tasks t = .snapshotted n snapshot)
    (hall : ∀ i, n ≤ i → i < s.updates → i ∈ s.pending.map Prod.fst) :
    Inv { s with
      queue := s.queue ++ [.checkpoint snapshot t]
      tasks := Function.update s.tasks t .checkpointing
      done := Function.update s.done t none } := by
  have hs := h.taken t n snapshot ht
  have hshut : ∀ tasks done, shutdown { s with
      queue := s.queue ++ [.checkpoint snapshot t], tasks, done } = ⟨some snapshot, []⟩ :=
    fun _ _ => shutdown_append s _
  refine ⟨?_, fun k => ?_, h.fits, h.pendingFits, h.sorted, h.below,
    h.held.move (by simp [ht]) (by simp), fun t' n' snapshot' ht' =>
      have hs' := snapshotted_update h.taken (by simp) ht'
      ⟨hs'.taken, hs'.before, hs'.since⟩⟩
  · rw [hshut]
    exact tornTail_none rfl
  · rw [hshut]
    -- the earlier writes still pending are in the snapshot already
    obtain ⟨v, hv⟩ := hs.before k
    rw [← filter_lt_append_filter_le h.sorted n, List.map_append, runOn_append, hv, runOn_twice,
      ← hv]
    exact hs.since hall k

theorem Inv.write {s : FileBackedSessionStore} (h : s.Inv) {cmd : Cmd} {queue : List Cmd}
    (hq : s.queue = cmd :: queue) (done : Nat → Option Bool) :
    Inv { s with queue, disk := cmd.after s.disk, done } := by
  have hshut : shutdown { s with queue, disk := cmd.after s.disk, done } = s.shutdown := by
    rw [shutdown, shutdown, hq, List.foldl_cons]
  refine ⟨?_, fun k => ?_, h.fits, h.pendingFits, h.sorted, h.below, h.held, fun t n snapshot ht =>
    have hs := h.taken t n snapshot ht
    ⟨hs.taken, hs.before, hs.since⟩⟩
  · rw [hshut]
    exact h.whole
  · rw [hshut]
    exact h.ahead k

/-- What `snapshot_bytes` returns holds every write the registry has. -/
theorem Inv.snapshot {s : FileBackedSessionStore} (h : s.Inv)
    {entries : List (Σ _ : Text, SessionRecord)} (hperm : entries.Perm s.inner.entries) :
    s.Snapshot s.updates (snapshotBytes entries) := by
  have hrec := recovered_snapshot h.fits hperm
  have hlt : s.pending.filter (·.1 < s.updates) = s.pending :=
    List.filter_eq_self.mpr fun p hp => by simpa using h.below p hp
  have hle : s.pending.filter (s.updates ≤ ·.1) = [] :=
    List.filter_eq_nil_iff.mpr fun p hp => by simpa using h.below p hp
  refine ⟨Nat.le_refl _, fun k => ⟨recovered s.shutdown k, ?_⟩, fun _ k => ?_⟩
  · rw [hrec k, hlt, h.ahead k]
  · rw [hle, hrec k]
    rfl

theorem Inv.durable {s : FileBackedSessionStore} (h : s.Inv) : s.Durable := by
  intro hidle k
  have hnone : s.pending = [] := by
    apply List.eq_nil_iff_forall_not_mem.mpr
    intro p hp
    obtain ⟨t, ht⟩ := h.held.held p hp
    exact nomatch (hidle t).symm.trans ht
  simpa [hnone] using h.ahead k

theorem FileStep.inv {s s' : FileBackedSessionStore} {e : FileEvent} (hs : FileStep s e s')
    (h : s.Inv) (ho : Ordered s e) : s'.Inv := by
  cases hs with
  | update ht => exact h.update ht ho
  | sendAppend ht => exact h.sendAppend ht (ho _ _ ht)
  | appended ht hdone => exact h.move (by simp [ht]) (by grind) (by grind) _
  | count ht => exact h.move (by simp [ht]) (by grind) (by grind) _
  | reset ht => exact h.move (by simp [ht]) (by simp) (by simp) _
  | snapshot ht hperm =>
    refine h.move (by simp [ht]) (by simp) (fun n snapshot hsnap => ?_) _
    cases hsnap
    exact h.snapshot hperm
  | sendCheckpoint ht => exact h.sendCheckpoint ht (ho _ _ ht)
  | checkpointed ht hdone => exact h.move (by simp [ht]) (by simp) (by simp) _
  | write hq => exact h.write hq _
  | restart hidle => exact inv_opened h.whole

/-- In every run ordered so, whenever no task is at work the files hold the registry. -/
theorem durable_of_ordered {s : FileBackedSessionStore} (h : fileSystem.Reach Ordered s) :
    s.Durable :=
  (h.invariant (by rintro s ⟨disk, hwhole, rfl⟩; exact inv_opened hwhole)
    fun _ _ _ hinv ho hs => FileStep.inv hs hinv ho).durable

/-- One task logs a session in and another touches it before the login is logged. -/
theorem durable_of_ordered_touch :
    ∃ s, fileSystem.Reach Ordered s ∧ (∀ t, s.tasks t = .idle) ∧
      s.inner.lookup [] = some ⟨[], 0, 7, []⟩ ∧ s.Durable := by
  have h₀ : fileSystem.Reach Ordered (opened {}) := .start ⟨{}, tornTail_none rfl, rfl⟩
  have hfit : (SessionOp.insert [] ⟨[], 0, 0, []⟩).Fits := by
    unfold SessionOp.Fits Framable
    decide
  have h₁ := h₀.step (e := FileEvent.update 0 (.insert [] ⟨[], 0, 0, []⟩)) hfit (.update rfl)
  have h₂ := h₁.step (e := FileEvent.update 1 (.touch [] 7)) trivial (.update rfl)
  have h₃ := h₂.step (e := FileEvent.sendAppend 0)
    (fun i op ht p _ hlt => by cases ht; exact absurd hlt (Nat.not_lt_zero _)) (.sendAppend rfl)
  have h₄ := h₃.step (e := FileEvent.sendAppend 1)
    (fun i op ht p hp hlt => by
      cases ht
      cases List.mem_singleton.mp hp
      exact absurd hlt (Nat.lt_irrefl _))
    (.sendAppend rfl)
  have h₅ := h₄.step (e := FileEvent.write) trivial (.write rfl)
  have h₆ := h₅.step (e := FileEvent.write) trivial (.write rfl)
  have h₇ := h₆.step (e := FileEvent.appended 0) trivial (.appended rfl rfl)
  have h₈ := h₇.step (e := FileEvent.appended 1) trivial (.appended rfl rfl)
  have h₉ := h₈.step (e := FileEvent.count 0) trivial (.count rfl)
  have h := h₉.step (e := FileEvent.count 1) trivial (.count rfl)
  refine ⟨_, h, fun t => ?_, by decide +kernel, durable_of_ordered h⟩
  match t with
  | 0 | 1 | _ + 2 => rfl

/-- Memory takes an insert and then a removal, and the log gets them the other way around. -/
theorem not_durable_sessions : ¬ ∀ s, fileSystem.Reachable s → s.Durable := by
  intro h
  have h₀ : fileSystem.Reachable (opened {}) := .start ⟨{}, tornTail_none rfl, rfl⟩
  have h₁ := h₀.step (e := FileEvent.update 0 (.insert [] ⟨[], 0, 0, []⟩)) trivial (.update rfl)
  have h₂ := h₁.step (e := FileEvent.update 1 (.remove [])) trivial (.update rfl)
  have h₃ := h₂.step trivial (.sendAppend (t := 1) rfl)
  have h₄ := h₃.step trivial (.sendAppend (t := 0) rfl)
  have h₅ := (h₄.step trivial (.write rfl)).step trivial (.write rfl)
  have h₆ := h₅.step trivial (.appended (t := 1) rfl rfl)
  have h₇ := h₆.step trivial (.appended (t := 0) rfl rfl)
  have h₈ := (h₇.step trivial (.count (t := 1) rfl)).step trivial (.count (t := 0) rfl)
  have hsame := h _ h₈ (fun t => match t with | 0 | 1 | _ + 2 => rfl) []
  revert hsame
  decide +kernel

end FileBackedSessionStore

end Kernway
