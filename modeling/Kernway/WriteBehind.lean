import Kernway.Runs
import Mathlib.Data.List.Induction

namespace Kernway

/-- Changes of a state, seen key by key: a change gives values to some keys and leaves the others
as they are. -/
structure KeyedChanges (σ ω κ α : Type) where
  apply : σ → ω → σ
  get : σ → κ → α
  given : ω → κ → Option α
  get_apply : ∀ s c k, get (apply s c) k = (given c k).getD (get s k)

inductive WriterCommand (σ ω : Type)
  | append (change : ω)
  | checkpoint (snapshot : σ)

/-- A state in memory that many tasks change, and one writer that keeps a snapshot and a log of it.
A task changes the memory first and hands its change to the writer later; so it does with a
snapshot. -/
structure WriteBehind (σ ω : Type) where
  memory : σ
  changing : List ω := []
  taken : List σ := []
  queue : List (WriterCommand σ ω) := []
  snapshot : σ
  log : List ω := []
  truncating : Bool := false

inductive WriteBehindEvent (ω : Type)
  | change (change : ω)
  | send (change : ω)
  | take
  | checkpoint
  | write
  | rename
  | truncate
  | reopen

namespace KeyedChanges

variable {σ ω κ α : Type} (keyed : KeyedChanges σ ω κ α)

def replay (snapshot : σ) (log : List ω) : σ := log.foldl keyed.apply snapshot

/-- The value that a log gives to a key last. -/
def lastGiven (log : List ω) (k : κ) : Option α :=
  log.foldl (fun v c => (keyed.given c k).or v) none

theorem get_replay (snapshot : σ) (log : List ω) (k : κ) :
    keyed.get (keyed.replay snapshot log) k =
      (keyed.lastGiven log k).getD (keyed.get snapshot k) := by
  unfold replay lastGiven
  induction log using List.reverseRecOn with
  | nil => rfl
  | append_singleton log c ih =>
    rw [List.foldl_append, List.foldl_append, List.foldl_cons, List.foldl_nil, List.foldl_cons,
      List.foldl_nil, keyed.get_apply, ih]
    cases keyed.given c k <;> rfl

/-- A log replayed over any snapshot shows what it gives, or what the snapshot shows. -/
theorem get_replay_cases (snapshot other : σ) (log : List ω) (k : κ) :
    keyed.get (keyed.replay other log) k = keyed.get (keyed.replay snapshot log) k ∨
      keyed.get (keyed.replay other log) k = keyed.get other k := by
  rw [get_replay, get_replay]
  cases keyed.lastGiven log k with
  | none => exact .inr rfl
  | some v => exact .inl rfl

/-- From `v` in the files on, the writer's commands lead to `m` for a key, and every snapshot among
them that no change of the key follows shows `m`. -/
def Leads (k : κ) (m : α) : α → List (WriterCommand σ ω) → Prop
  | v, [] => v = m
  | v, .append c :: queue => Leads k m ((keyed.given c k).getD v) queue
  | v, .checkpoint s :: queue => Leads k m (keyed.get s k) queue ∧ Leads k m v queue

variable {keyed} {k : κ} {m v : α} {queue : List (WriterCommand σ ω)}

/-- A change of another key at the end is nothing to a key. -/
theorem Leads.send_other (h : keyed.Leads k m v queue) {c : ω} (hc : keyed.given c k = none) :
    keyed.Leads k m v (queue ++ [.append c]) := by
  induction queue generalizing v with
  | nil =>
    show (keyed.given c k).getD v = m
    rw [hc]
    exact h
  | cons command queue ih =>
    cases command with
    | append _ => exact ih h
    | checkpoint _ => exact ⟨ih h.1, ih h.2⟩

/-- A change of a key at the end decides. -/
theorem leads_send {c : ω} (hc : keyed.given c k = some m) (v : α)
    (queue : List (WriterCommand σ ω)) : keyed.Leads k m v (queue ++ [.append c]) := by
  induction queue generalizing v with
  | nil =>
    show (keyed.given c k).getD v = m
    rw [hc]
    rfl
  | cons command queue ih =>
    cases command with
    | append _ => exact ih _
    | checkpoint _ => exact ⟨ih _, ih _⟩

theorem Leads.checkpoint (h : keyed.Leads k m v queue) {s : σ} (hs : keyed.get s k = m) :
    keyed.Leads k m v (queue ++ [.checkpoint s]) := by
  induction queue generalizing v with
  | nil => exact ⟨hs, h⟩
  | cons command queue ih =>
    cases command with
    | append _ => exact ih h
    | checkpoint _ => exact ⟨ih h.1, ih h.2⟩

/-- Where no change of a key is queued, the files show its value already. -/
theorem Leads.eq_of_none (h : keyed.Leads k m v queue)
    (hqueue : ∀ c, .append c ∈ queue → keyed.given c k = none) : v = m := by
  induction queue generalizing v with
  | nil => exact h
  | cons command queue ih =>
    have hrest := fun c hc => hqueue c (List.mem_cons_of_mem command hc)
    cases command with
    | append c =>
      unfold Leads at h
      rw [hqueue c List.mem_cons_self] at h
      exact ih h hrest
    | checkpoint _ => exact ih h.2 hrest

end KeyedChanges

namespace WriteBehind

variable {σ ω κ α : Type}

section Steps

variable (keyed : KeyedChanges σ ω κ α)

/-- What is in the files: the snapshot with the log over it. -/
def files (s : WriteBehind σ ω) : σ := keyed.replay s.snapshot s.log

/-- One step of a task, or of the writer, which installs a snapshot before it empties the log; a
`reopen` comes after a crash at any time. -/
inductive Step : WriteBehind σ ω → WriteBehindEvent ω → WriteBehind σ ω → Prop
  | change {s : WriteBehind σ ω} {c : ω} :
    Step s (.change c)
      { s with memory := keyed.apply s.memory c, changing := s.changing ++ [c] }
  | send {s : WriteBehind σ ω} {c : ω} {l r : List ω} : s.changing = l ++ c :: r →
    Step s (.send c) { s with changing := l ++ r, queue := s.queue ++ [.append c] }
  | take {s : WriteBehind σ ω} : Step s .take { s with taken := s.taken ++ [s.memory] }
  | checkpoint {s : WriteBehind σ ω} {snapshot : σ} {l r : List σ} :
    s.taken = l ++ snapshot :: r →
    Step s .checkpoint { s with taken := l ++ r, queue := s.queue ++ [.checkpoint snapshot] }
  | write {s : WriteBehind σ ω} {c : ω} {queue : List (WriterCommand σ ω)} :
    s.queue = .append c :: queue → s.truncating = false →
    Step s .write { s with queue, log := s.log ++ [c] }
  | rename {s : WriteBehind σ ω} {snapshot : σ} {queue : List (WriterCommand σ ω)} :
    s.queue = .checkpoint snapshot :: queue → s.truncating = false →
    Step s .rename { s with queue, snapshot, truncating := true }
  | truncate {s : WriteBehind σ ω} : s.truncating = true →
    Step s .truncate { s with log := [], truncating := false }
  | reopen {s : WriteBehind σ ω} :
    Step s .reopen { memory := s.files keyed, snapshot := s.snapshot, log := s.log }

/-- No two tasks change a key at once, and no change is handed over between a snapshot and its
checkpoint. -/
def Apart (s : WriteBehind σ ω) : WriteBehindEvent ω → Prop
  | .change c => ∀ c' ∈ s.changing, ∀ k, keyed.given c k = none ∨ keyed.given c' k = none
  | .send _ => s.taken = []
  | _ => True

/-- No task has changed a key without handing that over. -/
def Idle (s : WriteBehind σ ω) (k : κ) : Prop := ∀ c ∈ s.changing, keyed.given c k = none

/-- What steps apart keep. -/
structure Sound (s : WriteBehind σ ω) : Prop where
  changing : ∀ c ∈ s.changing, ∀ k v, keyed.given c k = some v → keyed.get s.memory k = v
  taken : ∀ snapshot ∈ s.taken, ∀ k, s.Idle keyed k →
    keyed.get snapshot k = keyed.get s.memory k
  leads : ∀ k, s.Idle keyed k →
    keyed.Leads k (keyed.get s.memory k) (keyed.get (s.files keyed) k) s.queue
  truncating : s.truncating = true → ∀ k, s.Idle keyed k →
    keyed.Leads k (keyed.get s.memory k) (keyed.get s.snapshot k) s.queue

end Steps

variable {keyed : KeyedChanges σ ω κ α} {s s' : WriteBehind σ ω}

/-- Where nothing is on its way, memory and files agree. -/
theorem sound_opened (snapshot : σ) (log : List ω) :
    Sound keyed { memory := keyed.replay snapshot log, snapshot, log } :=
  ⟨nofun, nofun, fun _ _ => rfl, nofun⟩

theorem Sound.change (h : s.Sound keyed) {c : ω} (hok : s.Apart keyed (.change c)) :
    Sound keyed { s with memory := keyed.apply s.memory c, changing := s.changing ++ [c] } := by
  have hkeep : ∀ {k}, keyed.given c k = none →
      keyed.get (keyed.apply s.memory c) k = keyed.get s.memory k := by
    intro k hk
    rw [keyed.get_apply, hk]
    rfl
  have hidle : ∀ {k}, (∀ c' ∈ s.changing ++ [c], keyed.given c' k = none) →
      keyed.given c k = none ∧ s.Idle keyed k := fun hall =>
    ⟨hall c (List.mem_append_right _ List.mem_cons_self),
      fun c' hc' => hall c' (List.mem_append_left _ hc')⟩
  refine ⟨fun c' hc' k v hv => ?_, fun snapshot hs k hk => ?_, fun k hk => ?_,
    fun htrunc k hk => ?_⟩
  · rcases List.mem_append.mp hc' with hc' | hc'
    · rcases hok c' hc' k with hnone | hnone
      · rw [hkeep hnone]
        exact h.changing c' hc' k v hv
      · rw [hnone] at hv
        cases hv
    · rw [List.mem_singleton.mp hc'] at hv
      show keyed.get (keyed.apply s.memory c) k = v
      rw [keyed.get_apply, hv]
      rfl
  · rw [hkeep (hidle hk).1]
    exact h.taken snapshot hs k (hidle hk).2
  · rw [hkeep (hidle hk).1]
    exact h.leads k (hidle hk).2
  · rw [hkeep (hidle hk).1]
    exact h.truncating htrunc k (hidle hk).2

theorem Sound.send (h : s.Sound keyed) {c : ω} {l r : List ω} (hchanging : s.changing = l ++ c :: r)
    (hok : s.taken = []) :
    Sound keyed { s with changing := l ++ r, queue := s.queue ++ [.append c] } := by
  have hmem : ∀ {c'}, c' ∈ l ++ r → c' ∈ s.changing := by
    intro c' hc'
    rw [hchanging]
    rcases List.mem_append.mp hc' with hl | hr
    · exact List.mem_append_left _ hl
    · exact List.mem_append_right _ (List.mem_cons_of_mem c hr)
  -- A key that is idle now and was not before is one that the change gives a value to.
  have hleads : ∀ {k v}, (∀ c' ∈ l ++ r, keyed.given c' k = none) →
      (s.Idle keyed k → keyed.Leads k (keyed.get s.memory k) v s.queue) →
      keyed.Leads k (keyed.get s.memory k) v (s.queue ++ [.append c]) := by
    intro k v hk hbefore
    cases hc : keyed.given c k with
    | some m =>
      have hc' : c ∈ s.changing := by
        rw [hchanging]
        exact List.mem_append_right _ List.mem_cons_self
      rw [← h.changing c hc' k m hc] at hc
      exact KeyedChanges.leads_send hc v s.queue
    | none =>
      refine (hbefore fun c' hc' => ?_).send_other hc
      rw [hchanging] at hc'
      rcases List.mem_append.mp hc' with hl | hr
      · exact hk c' (List.mem_append_left _ hl)
      · rcases List.mem_cons.mp hr with rfl | hr
        · exact hc
        · exact hk c' (List.mem_append_right _ hr)
  refine ⟨fun c' hc' => h.changing c' (hmem hc'), fun snapshot hs => ?_,
    fun k hk => hleads hk (h.leads k), fun htrunc k hk => hleads hk (h.truncating htrunc k)⟩
  rw [hok] at hs
  cases hs

theorem Sound.take (h : s.Sound keyed) : Sound keyed { s with taken := s.taken ++ [s.memory] } := by
  refine ⟨h.changing, fun snapshot hs k hk => ?_, h.leads, h.truncating⟩
  rcases List.mem_append.mp hs with hs | hs
  · exact h.taken snapshot hs k hk
  · rw [List.mem_singleton.mp hs]

theorem Sound.checkpoint (h : s.Sound keyed) {snapshot : σ} {l r : List σ}
    (htaken : s.taken = l ++ snapshot :: r) :
    Sound keyed { s with taken := l ++ r, queue := s.queue ++ [.checkpoint snapshot] } := by
  have hsnapshot : snapshot ∈ s.taken := by
    rw [htaken]
    exact List.mem_append_right _ List.mem_cons_self
  refine ⟨h.changing, fun other hother k hk => ?_, fun k hk => ?_, fun htrunc k hk => ?_⟩
  · refine h.taken other ?_ k hk
    rw [htaken]
    rcases List.mem_append.mp hother with hl | hr
    · exact List.mem_append_left _ hl
    · exact List.mem_append_right _ (List.mem_cons_of_mem snapshot hr)
  · exact (h.leads k hk).checkpoint (h.taken snapshot hsnapshot k hk)
  · exact (h.truncating htrunc k hk).checkpoint (h.taken snapshot hsnapshot k hk)

theorem Sound.write (h : s.Sound keyed) {c : ω} {queue : List (WriterCommand σ ω)}
    (hqueue : s.queue = .append c :: queue) (htrunc : s.truncating = false) :
    Sound keyed { s with queue, log := s.log ++ [c] } := by
  refine ⟨h.changing, h.taken, fun k hk => ?_, fun htrue => ?_⟩
  · have hleads := h.leads k hk
    rw [hqueue] at hleads
    have hfiles : keyed.get (keyed.replay s.snapshot (s.log ++ [c])) k =
        (keyed.given c k).getD (keyed.get (s.files keyed) k) := by
      unfold KeyedChanges.replay
      rw [List.foldl_append]
      exact keyed.get_apply _ c k
    show keyed.Leads k _ (keyed.get (keyed.replay s.snapshot (s.log ++ [c])) k) queue
    rw [hfiles]
    exact hleads
  · exact absurd (htrunc.symm.trans htrue) Bool.false_ne_true

/-- With a new snapshot under the old log, a key shows what it showed before or what the snapshot
shows; both lead on. -/
theorem Sound.rename (h : s.Sound keyed) {snapshot : σ} {queue : List (WriterCommand σ ω)}
    (hqueue : s.queue = .checkpoint snapshot :: queue) :
    Sound keyed { s with queue, snapshot, truncating := true } := by
  have hleads : ∀ k, s.Idle keyed k →
      keyed.Leads k (keyed.get s.memory k) (keyed.get snapshot k) queue ∧
        keyed.Leads k (keyed.get s.memory k) (keyed.get (s.files keyed) k) queue := by
    intro k hk
    have hboth := h.leads k hk
    rw [hqueue] at hboth
    exact hboth
  refine ⟨h.changing, h.taken, fun k hk => ?_, fun _ k hk => (hleads k hk).1⟩
  show keyed.Leads k _ (keyed.get (keyed.replay snapshot s.log) k) queue
  rcases keyed.get_replay_cases s.snapshot snapshot s.log k with hsame | hnew
  · rw [hsame]
    exact (hleads k hk).2
  · rw [hnew]
    exact (hleads k hk).1

theorem Sound.truncate (h : s.Sound keyed) (htrunc : s.truncating = true) :
    Sound keyed { s with log := [], truncating := false } :=
  ⟨h.changing, h.taken, fun k hk => h.truncating htrunc k hk, nofun⟩

theorem Sound.step (h : s.Sound keyed) {e : WriteBehindEvent ω} (hok : s.Apart keyed e)
    (hstep : Step keyed s e s') : s'.Sound keyed := by
  cases hstep with
  | change => exact h.change hok
  | send hchanging => exact h.send hchanging hok
  | take => exact h.take
  | checkpoint htaken => exact h.checkpoint htaken
  | write hqueue htrunc => exact h.write hqueue htrunc
  | rename hqueue => exact h.rename hqueue
  | truncate htrunc => exact h.truncate htrunc
  | reopen => exact sound_opened s.snapshot s.log

/-- The files show what memory shows, of every key with no change on its way. -/
theorem Sound.get_files (h : s.Sound keyed) {k : κ} (hidle : s.Idle keyed k)
    (hqueue : ∀ c, .append c ∈ s.queue → keyed.given c k = none) :
    keyed.get (s.files keyed) k = keyed.get s.memory k :=
  (h.leads k hidle).eq_of_none hqueue

end WriteBehind

end Kernway
