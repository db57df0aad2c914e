import Kernway.FileBans
import Kernway.WriteBehind

namespace Kernway

/-- The commands that the writer thread services. -/
inductive PersistCommand
  | append (record : Bytes)
  | checkpoint (snapshot : Bytes)

/-- A `FileBackedBans` that many tasks call: the changes that are made in memory and not handed to
the writer yet, the snapshots that are taken and not handed over, the writer's channel, and whether
the writer is between the rename of a snapshot and the truncation of its log. -/
structure SharedFileBans where
  bans : BanList
  changing : List BanChange := []
  taken : List Bytes := []
  queue : List PersistCommand := []
  disk : Disk
  truncating : Bool := false

inductive SharedBanEvent
  | change (change : BanChange)
  | send (change : BanChange)
  | take
  | checkpoint
  | write
  | rename
  | truncate
  | crash
  | crashWriting (kept : Nat)

namespace SharedFileBans

open FileBans

def openFiles (disk : Disk) : SharedFileBans := { bans := FileBans.replay disk.load, disk }

/-- A step of a task or of the writer; a crash comes at any time, within a record too, and the files
are opened again. -/
inductive Step : SharedFileBans → SharedBanEvent → SharedFileBans → Prop
  | change {s : SharedFileBans} {c : BanChange} :
    Step s (.change c) { s with bans := s.bans.apply c.op, changing := s.changing ++ [c] }
  | send {s : SharedFileBans} {c : BanChange} {l r : List BanChange} :
    s.changing = l ++ c :: r →
    Step s (.send c)
      { s with changing := l ++ r, queue := s.queue ++ [.append (FileBans.recordOf c)] }
  | take {s : SharedFileBans} :
    Step s .take { s with taken := s.taken ++ [FileBans.snapshotBytes s.bans] }
  | checkpoint {s : SharedFileBans} {snapshot : Bytes} {l r : List Bytes} :
    s.taken = l ++ snapshot :: r →
    Step s .checkpoint { s with taken := l ++ r, queue := s.queue ++ [.checkpoint snapshot] }
  | write {s : SharedFileBans} {record : Bytes} {queue : List PersistCommand} :
    s.queue = .append record :: queue → s.truncating = false →
    Step s .write { s with queue, disk := (s.disk.append record).getD s.disk }
  | rename {s : SharedFileBans} {snapshot : Bytes} {queue : List PersistCommand} :
    s.queue = .checkpoint snapshot :: queue → s.truncating = false →
    Step s .rename
      { s with queue, disk := { s.disk with snapshot := some snapshot }, truncating := true }
  | truncate {s : SharedFileBans} : s.truncating = true →
    Step s .truncate { s with disk := { s.disk with wal := [] }, truncating := false }
  | crash {s : SharedFileBans} : Step s .crash (openFiles s.disk)
  | crashWriting {s : SharedFileBans} {record : Bytes} {queue : List PersistCommand} {kept : Nat} :
    s.queue = .append record :: queue → s.truncating = false → kept < (frame record).length →
    Step s (.crashWriting kept)
      (openFiles { s.disk with wal := s.disk.wal ++ (frame record).take kept })

/-- No two tasks change one rule at once, no change is handed over between a snapshot and its
checkpoint, and nothing is written behind a torn record. -/
def Orderly (s : SharedFileBans) : SharedBanEvent → Prop
  | .change c => Framable (FileBans.recordOf c) ∧
    ∀ c' ∈ s.changing, ∀ rule, c.rule = some rule → c'.rule ≠ some rule
  | .send _ => s.taken = []
  | .write | .crashWriting _ => tornTail s.disk.wal = []
  | _ => True

end SharedFileBans

/-- A store from an empty directory on. -/
def sharedFileBanSystem : System SharedFileBans SharedBanEvent where
  start s := s = .openFiles {}
  step := SharedFileBans.Step

namespace FileBans

/-- The list, seen rule by rule. -/
def keyed : KeyedChanges BanList BanChange BanRule Bool where
  apply bans c := bans.apply c.op
  get bans rule := decide (rule ∈ bans.rules)
  given c rule :=
    if c.rule = some rule then
      some (match c with
        | .ban _ => true
        | .unban _ => false)
    else none
  get_apply bans c rule := by
    rw [Bool.eq_iff_iff, decide_eq_true_iff, mem_apply_op]
    split
    next heq => cases c <;> simp [heq]
    next hne => simp [hne]

theorem given_eq_none {c : BanChange} {rule : BanRule} :
    keyed.given c rule = none ↔ c.rule ≠ some rule := by
  show (if _ then _ else _) = none ↔ _
  split
  next heq => simp [heq]
  next hne => simp [hne]

/-- A list that a snapshot keeps. -/
structure Packable (bans : BanList) : Prop where
  nodup : bans.rules.Nodup
  made : ∀ rule ∈ bans.rules, Made rule

theorem Packable.apply {bans : BanList} (h : Packable bans) {c : BanChange}
    (hc : Framable (FileBans.recordOf c)) : Packable (bans.apply c.op) :=
  ⟨nodup_apply h.nodup c.op, made_apply h.made hc⟩

theorem Packable.replay {bans : BanList} (h : Packable bans) {log : List BanChange}
    (hlog : ∀ c ∈ log, Framable (FileBans.recordOf c)) : Packable (keyed.replay bans log) := by
  unfold KeyedChanges.replay
  induction log generalizing bans with
  | nil => exact h
  | cons c log ih =>
    exact ih (h.apply (hlog c List.mem_cons_self)) fun c' hc' => hlog c' (List.mem_cons_of_mem c hc')

end FileBans

namespace SharedFileBans

open FileBans

/-- A command as the writer receives it. -/
def written : WriterCommand BanList BanChange → PersistCommand
  | .append c => .append (FileBans.recordOf c)
  | .checkpoint bans => .checkpoint (FileBans.snapshotBytes bans)

/-- A command whose bytes can be read again. -/
def Readable : WriterCommand BanList BanChange → Prop
  | .append c => Framable (FileBans.recordOf c)
  | .checkpoint bans => Packable bans

/-- The lists and changes that the bytes of a store stand for. -/
structure Models (s : SharedFileBans) (t : WriteBehind BanList BanChange) : Prop where
  memory : t.memory = s.bans
  changing : t.changing = s.changing
  taken : s.taken = t.taken.map FileBans.snapshotBytes
  queue : s.queue = t.queue.map written
  snapshot : journal.recover s.disk.snapshot [] = t.snapshot
  log : readFrames s.disk.wal = t.log.map FileBans.recordOf
  truncating : t.truncating = s.truncating
  packable_memory : Packable t.memory
  packable_snapshot : Packable t.snapshot
  packable_taken : ∀ bans ∈ t.taken, Packable bans
  framable_changing : ∀ c ∈ t.changing, Framable (FileBans.recordOf c)
  framable_log : ∀ c ∈ t.log, Framable (FileBans.recordOf c)
  readable : ∀ c ∈ t.queue, Readable c

variable {s s' : SharedFileBans} {t : WriteBehind BanList BanChange}

/-- The files hold the snapshot with the log over it. -/
theorem Models.replay_load (h : s.Models t) : FileBans.replay s.disk.load = t.files keyed := by
  have hfold := Journal.foldl_encode (fun c hc => kept_of_framable (h.framable_log c hc)) t.snapshot
  rw [FileBans.replay_load, Journal.recover_eq, h.snapshot, h.log]
  exact hfold

theorem Models.opened (h : s.Models t) {disk : Disk} (hsnapshot : disk.snapshot = s.disk.snapshot)
    (hlog : readFrames disk.wal = readFrames s.disk.wal) :
    (openFiles disk).Models
      { memory := t.files keyed, snapshot := t.snapshot, log := t.log } where
  memory := by
    have hload : disk.load = s.disk.load := by
      unfold Disk.load readWal
      rw [hsnapshot, hlog]
    show t.files keyed = FileBans.replay disk.load
    rw [hload, h.replay_load]
  changing := rfl
  taken := rfl
  queue := rfl
  snapshot := by
    show journal.recover disk.snapshot [] = t.snapshot
    rw [hsnapshot, h.snapshot]
  log := hlog.trans h.log
  truncating := rfl
  packable_memory := h.packable_snapshot.replay h.framable_log
  packable_snapshot := h.packable_snapshot
  packable_taken := nofun
  framable_changing := nofun
  framable_log := h.framable_log
  readable := nofun

theorem Models.change (h : s.Models t) {c : BanChange} (hc : Framable (FileBans.recordOf c)) :
    Models { s with bans := s.bans.apply c.op, changing := s.changing ++ [c] }
      { t with memory := keyed.apply t.memory c, changing := t.changing ++ [c] } :=
  { h with
    memory := congrArg (fun bans => bans.apply c.op) h.memory
    changing := congrArg (fun changing => changing ++ [c]) h.changing
    packable_memory := h.packable_memory.apply hc
    framable_changing := List.forall_mem_append.mpr
      ⟨h.framable_changing, List.forall_mem_singleton.mpr hc⟩ }

theorem Models.queued (h : s.Models t) (command : WriterCommand BanList BanChange)
    (hcommand : Readable command) :
    s.queue ++ [written command] = (t.queue ++ [command]).map written ∧
      ∀ c ∈ t.queue ++ [command], Readable c := by
  constructor
  · rw [h.queue, List.map_append]
    rfl
  · exact List.forall_mem_append.mpr ⟨h.readable, List.forall_mem_singleton.mpr hcommand⟩

theorem Models.send (h : s.Models t) {c : BanChange} {l r : List BanChange}
    (hchanging : t.changing = l ++ c :: r) :
    Models { s with changing := l ++ r, queue := s.queue ++ [.append (FileBans.recordOf c)] }
      { t with changing := l ++ r, queue := t.queue ++ [.append c] } := by
  have hframable := h.framable_changing
  rw [hchanging, List.forall_mem_append, List.forall_mem_cons] at hframable
  obtain ⟨hqueue, hreadable⟩ := h.queued (.append c) hframable.2.1
  exact { h with
    changing := rfl
    queue := hqueue
    framable_changing := List.forall_mem_append.mpr ⟨hframable.1, hframable.2.2⟩
    readable := hreadable }

theorem Models.take (h : s.Models t) :
    Models { s with taken := s.taken ++ [FileBans.snapshotBytes s.bans] }
      { t with taken := t.taken ++ [t.memory] } :=
  { h with
    taken := by
      show s.taken ++ _ = (t.taken ++ _).map FileBans.snapshotBytes
      rw [h.taken, List.map_append, h.memory]
      rfl
    packable_taken := List.forall_mem_append.mpr
      ⟨h.packable_taken, List.forall_mem_singleton.mpr h.packable_memory⟩ }

theorem Models.checkpoint (h : s.Models t) {snapshot : Bytes} {l r : List Bytes}
    (htaken : s.taken = l ++ snapshot :: r) : ∃ (bans : BanList) (l' r' : List BanList),
      t.taken = l' ++ bans :: r' ∧
      Models { s with taken := l ++ r, queue := s.queue ++ [.checkpoint snapshot] }
        { t with taken := l' ++ r', queue := t.queue ++ [.checkpoint bans] } := by
  obtain ⟨l', rest, htaken', rfl, hrest⟩ := List.map_eq_append_iff.mp (h.taken.symm.trans htaken)
  obtain ⟨bans, r', rfl, rfl, rfl⟩ := List.map_eq_cons_iff.mp hrest
  have hpackable := h.packable_taken
  rw [htaken', List.forall_mem_append, List.forall_mem_cons] at hpackable
  obtain ⟨hqueue, hreadable⟩ := h.queued (.checkpoint bans) hpackable.2.1
  exact ⟨bans, l', r', htaken', { h with
    taken := List.map_append.symm
    queue := hqueue
    packable_taken := List.forall_mem_append.mpr ⟨hpackable.1, hpackable.2.2⟩
    readable := hreadable }⟩

/-- The command that the writer receives. -/
theorem Models.head (h : s.Models t) {first : PersistCommand} {queue : List PersistCommand}
    (hqueue : s.queue = first :: queue) : ∃ command queue', t.queue = command :: queue' ∧
      written command = first ∧ queue = queue'.map written ∧ Readable command ∧
      ∀ c ∈ queue', Readable c := by
  obtain ⟨command, queue', hq, hfirst, hrest⟩ :=
    List.map_eq_cons_iff.mp (h.queue.symm.trans hqueue)
  have hreadable := h.readable
  rw [hq, List.forall_mem_cons] at hreadable
  exact ⟨command, queue', hq, hfirst, hrest.symm, hreadable⟩

theorem Models.write (h : s.Models t) (hwhole : tornTail s.disk.wal = []) {record : Bytes}
    {queue : List PersistCommand} (hqueue : s.queue = .append record :: queue) :
    ∃ (c : BanChange) (queue' : List (WriterCommand BanList BanChange)),
      t.queue = .append c :: queue' ∧
      Models { s with queue, disk := (s.disk.append record).getD s.disk }
        { t with queue := queue', log := t.log ++ [c] } := by
  obtain ⟨command, queue', hq, hfirst, hrest, hreadable, hreadables⟩ := h.head hqueue
  cases command with
  | checkpoint bans => cases hfirst
  | append c =>
    cases hfirst
    have hlen : (FileBans.recordOf c).length < 2 ^ 32 := hreadable
    have hdisk : (s.disk.append (FileBans.recordOf c)).getD s.disk =
        { s.disk with wal := s.disk.wal ++ frame (FileBans.recordOf c) } := by
      unfold Disk.append
      rw [if_pos hlen]
      rfl
    refine ⟨c, queue', hq, ?_⟩
    rw [hdisk]
    exact { h with
      queue := hrest
      log := by
        show readFrames (s.disk.wal ++ frame _) = (t.log ++ [c]).map FileBans.recordOf
        rw [(readFrames_append_frame hwhole hreadable).1, h.log, List.map_append]
        rfl
      framable_log := List.forall_mem_append.mpr
        ⟨h.framable_log, List.forall_mem_singleton.mpr hreadable⟩
      readable := hreadables }

theorem Models.rename (h : s.Models t) {snapshot : Bytes} {queue : List PersistCommand}
    (hqueue : s.queue = .checkpoint snapshot :: queue) :
    ∃ (bans : BanList) (queue' : List (WriterCommand BanList BanChange)),
      t.queue = .checkpoint bans :: queue' ∧
      Models { s with queue, disk := { s.disk with snapshot := some snapshot }, truncating := true }
        { t with queue := queue', snapshot := bans, truncating := true } := by
  obtain ⟨command, queue', hq, hfirst, hrest, hreadable, hreadables⟩ := h.head hqueue
  cases command with
  | append c => cases hfirst
  | checkpoint bans =>
    cases hfirst
    exact ⟨bans, queue', hq, { h with
      queue := hrest
      snapshot := recover_snapshotBytes hreadable.nodup hreadable.made
      truncating := rfl
      packable_snapshot := hreadable
      readable := hreadables }⟩

/-- Every step of the store is one of the lists and changes that its bytes stand for. -/
theorem Models.step (h : s.Models t) {e : SharedBanEvent} (hok : s.Orderly e)
    (hstep : Step s e s') :
    ∃ e' t', t.Apart keyed e' ∧ WriteBehind.Step keyed t e' t' ∧ s'.Models t' := by
  cases hstep with
  | @change c =>
    refine ⟨.change c, _, fun c' hc' rule => ?_, .change, h.change hok.1⟩
    rw [given_eq_none, given_eq_none]
    by_cases hrule : c.rule = some rule
    · exact .inr (hok.2 c' (h.changing ▸ hc') rule hrule)
    · exact .inl hrule
  | @send c l r hchanging =>
    have htaken : t.taken = [] := List.map_eq_nil_iff.mp (h.taken.symm.trans hok)
    have hchanging' := h.changing.trans hchanging
    exact ⟨.send c, _, htaken, .send hchanging', h.send hchanging'⟩
  | take => exact ⟨.take, _, trivial, .take, h.take⟩
  | checkpoint htaken =>
    obtain ⟨bans, l', r', htaken', hmodels⟩ := h.checkpoint htaken
    exact ⟨.checkpoint, _, trivial, .checkpoint htaken', hmodels⟩
  | write hqueue hidle =>
    obtain ⟨c, queue', hq, hmodels⟩ := h.write hok hqueue
    exact ⟨.write, _, trivial, .write hq (h.truncating.trans hidle), hmodels⟩
  | rename hqueue hidle =>
    obtain ⟨bans, queue', hq, hmodels⟩ := h.rename hqueue
    exact ⟨.rename, _, trivial, .rename hq (h.truncating.trans hidle), hmodels⟩
  | truncate hbusy =>
    exact ⟨.truncate, _, trivial, .truncate (h.truncating.trans hbusy), { h with
      log := readFrames_none rfl
      truncating := rfl
      framable_log := nofun }⟩
  | crash => exact ⟨.reopen, _, trivial, .reopen, h.opened rfl rfl⟩
  | crashWriting hqueue _ hkept =>
    obtain ⟨command, queue', hq, hfirst, -, hreadable, -⟩ := h.head hqueue
    cases command with
    | checkpoint bans => cases hfirst
    | append c =>
      cases hfirst
      exact ⟨.reopen, _, trivial, .reopen,
        h.opened rfl (readFrames_append_cut hok hreadable hkept)⟩

/-- In every run of the tasks and the writer, whatever crashes and checkpoints come between, a rule
with no change on its way to the log is in the files just where it is in memory. -/
theorem shared_file_bans_survive (h : sharedFileBanSystem.Reach Orderly s) {rule : BanRule}
    (hchanging : ∀ c ∈ s.changing, c.rule ≠ some rule)
    (hqueue : ∀ c, .append (FileBans.recordOf c) ∈ s.queue → BanChange.rule c ≠ some rule) :
    rule ∈ (FileBans.replay s.disk.load).rules ↔ rule ∈ s.bans.rules := by
  have hempty : FileBans.replay (Disk.load {}) = ⟨[]⟩ := Journal.recover_empty
  have hstart : ∀ s, sharedFileBanSystem.start s → ∃ t, s.Models t ∧ t.Sound keyed := by
    rintro s rfl
    refine ⟨{ memory := ⟨[]⟩, snapshot := ⟨[]⟩ }, ?_, WriteBehind.sound_opened (BanList.mk []) []⟩
    have hpackable : Packable ⟨[]⟩ := ⟨List.nodup_nil, nofun⟩
    exact ⟨hempty.symm, rfl, rfl, rfl, Journal.recover_empty, readFrames_none rfl, rfl, hpackable,
      hpackable, nofun, nofun, nofun, nofun⟩
  obtain ⟨t, hmodels, hsound⟩ := h.invariant hstart fun s e s' ih hok hstep => by
    obtain ⟨t, hmodels, hsound⟩ := ih
    obtain ⟨e', t', hapart, hstep', hmodels'⟩ := hmodels.step hok hstep
    exact ⟨t', hmodels', hsound.step hapart hstep'⟩
  have hget := hsound.get_files (k := rule)
    (fun c hc => given_eq_none.mpr (hchanging c (hmodels.changing ▸ hc)))
    fun c hc => given_eq_none.mpr (hqueue c (by
      rw [hmodels.queue]
      exact List.mem_map_of_mem hc))
  rw [← hmodels.replay_load, hmodels.memory] at hget
  exact decide_eq_decide.mp hget

/-- A ban that is logged, and a snapshot of it that is in place while the log is still there. -/
theorem shared_file_bans_survive_rename : ∃ s, sharedFileBanSystem.Reach Orderly s ∧
    s.truncating = true ∧ .user ['a'] ∈ (FileBans.replay s.disk.load).rules := by
  have hopen : openFiles {} = { bans := ⟨[]⟩, disk := {} } := by
    have hempty : FileBans.replay (Disk.load {}) = ⟨[]⟩ := Journal.recover_empty
    unfold openFiles
    rw [hempty]
  have hstart : sharedFileBanSystem.Reach Orderly { bans := ⟨[]⟩, disk := {} } := .start hopen.symm
  have hframable : Framable (FileBans.recordOf (.ban (.user ['a']))) :=
    show (FileBans.recordOf (.ban (.user ['a']))).length < 2 ^ 32 by decide
  have hrun := (((((hstart.step (e := SharedBanEvent.change (.ban (.user ['a']))) ⟨hframable, nofun⟩
    .change).step (e := SharedBanEvent.send (.ban (.user ['a']))) rfl (.send (l := []) rfl)).step
    (e := SharedBanEvent.write) (tornTail_none rfl) (.write rfl rfl)).step
    (e := SharedBanEvent.take) trivial .take).step (e := SharedBanEvent.checkpoint) trivial
    (.checkpoint (l := []) rfl)).step (e := SharedBanEvent.rename) trivial (.rename rfl rfl)
  exact ⟨_, hrun, rfl, (shared_file_bans_survive hrun nofun nofun).mpr List.mem_cons_self⟩

end SharedFileBans

end Kernway
