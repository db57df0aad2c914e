import Kernway.FileBans
import Mathlib.Data.List.Lex

namespace Kernway

namespace FileActivity

def checkpointEvery : Nat := 2000

/-- The rows by their ids and the log of the requests. -/
def journal : Journal (Table Text ActiveVisitor) ActiveVisitor where
  empty := ∅
  apply visitors visitor := visitors.insert visitor.id visitor
  encode := ActiveVisitor.encode
  decode := ActiveVisitor.decode

/-- `replay`. -/
def replay (loaded : Loaded) : Table Text ActiveVisitor :=
  loaded.records.foldl journal.applyRecord
    (((loaded.snapshot.map readFrames).getD []).foldl journal.applyRecord ∅)

/-- `snapshot_bytes`, from the rows in the order that the map lists them. -/
def snapshotBytes (rows : List ActiveVisitor) : Bytes := rows.flatMap fun v => frame v.encode

end FileActivity

structure FileBackedActivity where
  inner : InMemoryActivity
  disk : Disk
  sinceCheckpoint : Nat

namespace FileBackedActivity

/-- `FileBackedActivity::open`. -/
def openFiles (windowSecs : Nat) (disk : Disk) : FileBackedActivity :=
  ⟨⟨windowSecs, FileActivity.replay disk.load⟩, disk, 0⟩

/-- `record`, with the rows as the map lists them for a snapshot; whether it is acknowledged. -/
def record (store : FileBackedActivity) (visitor : ActiveVisitor) (rows : List ActiveVisitor) :
    FileBackedActivity × Bool :=
  let inner := store.inner.record visitor
  match store.disk.append visitor.encode with
  | none => ({ store with inner }, false)
  | some disk =>
    if store.sinceCheckpoint + 1 ≥ FileActivity.checkpointEvery then
      (⟨inner, disk.checkpoint (FileActivity.snapshotBytes rows), 0⟩, true)
    else (⟨inner, disk, store.sinceCheckpoint + 1⟩, true)

def active (store : FileBackedActivity) (now : Nat) : List ActiveVisitor × FileBackedActivity :=
  let (rows, inner) := store.inner.active now
  (rows, { store with inner })

def count (store : FileBackedActivity) (now : Nat) : Nat := store.inner.count now

end FileBackedActivity

inductive FileActivityEvent
  | record (visitor : ActiveVisitor)
  | active (now : Nat)
  | reopen
  | crash (visitor : ActiveVisitor) (kept : Nat)

/-- A store with the requests that it has acknowledged and the time of its last read. -/
structure FileActivityRun where
  store : FileBackedActivity
  visitors : List ActiveVisitor := []
  readAt : Nat := 0

inductive FileActivityStep : FileActivityRun → FileActivityEvent → FileActivityRun → Prop
  | record {s : FileActivityRun} {visitor : ActiveVisitor} {rows : List ActiveVisitor}
    {store : FileBackedActivity} :
    rows.Perm ((s.store.inner.record visitor).visitors.entries.map fun e => e.2) →
    s.store.record visitor rows = (store, true) →
    FileActivityStep s (.record visitor)
      { s with store, visitors := s.visitors ++ [visitor] }
  | active {s : FileActivityRun} {now : Nat} :
    FileActivityStep s (.active now) { s with store := (s.store.active now).2, readAt := now }
  | reopen {s : FileActivityRun} :
    FileActivityStep s .reopen
      { s with store := .openFiles s.store.inner.windowSecs s.store.disk }
  | crash {s : FileActivityRun} {visitor : ActiveVisitor} {kept : Nat} :
    Framable visitor.encode → kept < (frame visitor.encode).length →
    FileActivityStep s (.crash visitor kept)
      { s with
        store := .openFiles s.store.inner.windowSecs
          { s.store.disk with wal := s.store.disk.wal ++ (frame visitor.encode).take kept } }

/-- A store from an empty directory on. -/
def fileActivitySystem (windowSecs : Nat) : System FileActivityRun FileActivityEvent where
  start s := s = ⟨.openFiles windowSecs {}, [], 0⟩
  step := FileActivityStep

namespace FileActivityRun

/-- Nothing is written behind a torn record, the times of requests are of 64 bits, and the reads
come in order. -/
def InOrder (s : FileActivityRun) : FileActivityEvent → Prop
  | .record visitor | .crash visitor _ =>
    tornTail s.store.disk.wal = [] ∧ visitor.lastSeen < 2 ^ 64
  | .active now => s.readAt ≤ now
  | .reopen => True

/-- A store in memory that has got the acknowledged requests, with no read and no restart. -/
def inMemory (windowSecs : Nat) (s : FileActivityRun) : InMemoryActivity :=
  s.visitors.foldl InMemoryActivity.record ⟨windowSecs, ∅⟩

end FileActivityRun

namespace FileActivity

theorem replay_load (disk : Disk) : replay disk.load = journal.recover disk.snapshot disk.wal := rfl

/-- A row that fits its frame is read back from it. -/
theorem kept_of_framable {visitor : ActiveVisitor} (h : Framable visitor.encode)
    (htime : visitor.lastSeen < 2 ^ 64) : journal.Kept visitor := by
  have hlen : visitor.encode.length < 2 ^ 32 := h
  have hshort : visitor.Short := by
    unfold ActiveVisitor.encode ActiveVisitor.putOpt at hlen
    simp only [List.length_append, List.length_cons, length_putStr, length_toLe] at hlen
    refine ⟨?_, ?_, ?_, ?_, htime⟩
    · unfold Short
      omega
    · intro agent hagent
      rw [Option.mem_def] at hagent
      rw [hagent, Option.getD_some] at hlen
      unfold Short
      omega
    · unfold Short
      omega
    · unfold Short
      omega
  refine ⟨h, fun visitors => ?_⟩
  have hread := reads_visitor hshort []
  have hdecode : journal.decode (journal.encode visitor) = some visitor := by
    show ActiveVisitor.decode visitor.encode = some visitor
    rw [decodeVisitor_eq]
    rw [List.append_nil] at hread
    rw [hread]
    rfl
  unfold Journal.applyRecord
  rw [hdecode]

/-- The same rows, but that some from before `oldest` may be missing. -/
def Agrees (oldest : Nat) (all rows : Table Text ActiveVisitor) : Prop :=
  ∀ id, rows.lookup id = all.lookup id ∨
    rows.lookup id = none ∧ ∀ v, all.lookup id = some v → v.lastSeen < oldest

/-- Every row is under its id and is read back from its record. -/
def ById (rows : Table Text ActiveVisitor) : Prop :=
  ∀ id v, rows.lookup id = some v → v.id = id ∧ journal.Kept v

variable {all rows rows' : Table Text ActiveVisitor} {oldest : Nat}

theorem lookup_apply (rows : Table Text ActiveVisitor) (v : ActiveVisitor) (id : Text) :
    (journal.apply rows v).lookup id = if id = v.id then some v else rows.lookup id :=
  Table.lookup_insert_eq rows v.id id v

theorem Agrees.of_lookup (h : Agrees oldest all rows)
    (hlook : ∀ id, rows'.lookup id = rows.lookup id) : Agrees oldest all rows' := by
  intro id
  rw [hlook]
  exact h id

theorem Agrees.sub (h : Agrees oldest all rows) {id : Text} {v : ActiveVisitor}
    (hlook : rows.lookup id = some v) : all.lookup id = some v := by
  rcases h id with hsame | ⟨hnone, _⟩
  · exact hsame.symm.trans hlook
  · rw [hnone] at hlook
    cases hlook

theorem Agrees.apply (h : Agrees oldest all rows) (v : ActiveVisitor) :
    Agrees oldest (journal.apply all v) (journal.apply rows v) := by
  intro id
  rw [lookup_apply, lookup_apply]
  split
  next => exact .inl rfl
  next => exact h id

theorem Agrees.mono (h : Agrees oldest all rows) {oldest' : Nat} (hle : oldest ≤ oldest') :
    Agrees oldest' all rows :=
  fun id => (h id).imp_right fun hold =>
    ⟨hold.1, fun v hv => Nat.lt_of_lt_of_le (hold.2 v hv) hle⟩

/-- A read prunes what is older. -/
theorem Agrees.retain (h : Agrees oldest all rows) :
    Agrees oldest all (rows.retain fun _ v => decide (oldest ≤ v.lastSeen)) := by
  intro id
  rw [Table.lookup_retain]
  rcases h id with hsame | ⟨hnone, hold⟩
  · rw [hsame]
    cases hlook : all.lookup id with
    | none => exact .inl rfl
    | some v =>
      rw [Option.filter_some]
      split
      next => exact .inl rfl
      next hold =>
        refine .inr ⟨rfl, fun w hw => ?_⟩
        cases hw
        exact Nat.lt_of_not_le (of_decide_eq_false (Bool.not_eq_true _ ▸ hold))
  · rw [hnone]
    exact .inr ⟨rfl, hold⟩

theorem ById.apply (h : ById all) {v : ActiveVisitor} (hkept : journal.Kept v) :
    ById (journal.apply all v) := by
  intro id w hlook
  rw [lookup_apply] at hlook
  split at hlook
  next heq =>
    cases hlook
    exact ⟨heq.symm, hkept⟩
  next => exact h id w hlook

theorem ById.of_agrees (h : ById all) (hagrees : Agrees oldest all rows) : ById rows :=
  fun id v hlook => h id v (hagrees.sub hlook)

section Rows

variable {list : List ActiveVisitor}

/-- The rows of a map have ids of their own. -/
theorem nodup_ids (h : ById rows) (hlist : list.Perm (rows.entries.map fun e => e.2)) :
    (list.map (·.id)).Nodup := by
  have hids : (rows.entries.map fun e => e.2).map (·.id) = rows.keys := by
    unfold AList.keys List.keys
    rw [List.map_map]
    refine List.map_congr_left fun e he => ?_
    exact (h e.1 e.2 (AList.mem_lookup_iff.mpr he)).1
  rw [(hlist.map (·.id)).nodup_iff, hids]
  exact rows.keys_nodup

theorem mem_rows (h : ById rows) (hlist : list.Perm (rows.entries.map fun e => e.2))
    {v : ActiveVisitor} : v ∈ list ↔ rows.lookup v.id = some v := by
  rw [hlist.mem_iff, List.mem_map]
  constructor
  · rintro ⟨⟨id, w⟩, hmem, rfl⟩
    have hlook : rows.lookup id = some w := AList.mem_lookup_iff.mpr hmem
    exact (h id w hlook).1 ▸ hlook
  · exact fun hlook => ⟨⟨v.id, v⟩, AList.mem_lookup_iff.mp hlook, rfl⟩

/-- Rows with ids of their own, inserted one after another. -/
theorem lookup_foldl_apply (hlist : (list.map (·.id)).Nodup) (rows : Table Text ActiveVisitor)
    (id : Text) : (list.foldl journal.apply rows).lookup id =
      (list.find? fun v => v.id = id).or (rows.lookup id) := by
  induction list generalizing rows with
  | nil => rfl
  | cons v list ih =>
    rw [List.map_cons, List.nodup_cons] at hlist
    rw [List.foldl_cons, ih hlist.2, List.find?_cons, lookup_apply]
    by_cases hid : v.id = id
    · have hnone : list.find? (fun w => decide (w.id = id)) = none := by
        rw [List.find?_eq_none]
        intro w hw hwid
        apply hlist.1
        rw [hid, ← of_decide_eq_true hwid]
        exact List.mem_map_of_mem hw
      rw [hnone, decide_eq_true hid, if_pos hid.symm]
      rfl
    · rw [decide_eq_false hid, if_neg (Ne.symm hid)]

/-- A snapshot of the rows holds them, in whatever order it lists them. -/
theorem lookup_recover_snapshot (h : ById rows)
    (hlist : list.Perm (rows.entries.map fun e => e.2)) (id : Text) :
    (journal.recover (some (snapshotBytes list)) []).lookup id = rows.lookup id := by
  have hkept : ∀ v ∈ list, journal.Kept v := fun v hv =>
    (h v.id v ((mem_rows h hlist).mp hv)).2
  have hpack : journal.recover (some (snapshotBytes list)) [] = list.foldl journal.apply ∅ :=
    Journal.recover_pack hkept
  rw [hpack, lookup_foldl_apply (nodup_ids h hlist), AList.lookup_empty, Option.or_none]
  apply Option.ext
  intro v
  constructor
  · intro hfind
    have hid : v.id = id := by simpa using List.find?_some hfind
    rw [← hid]
    exact (mem_rows h hlist).mp (List.mem_of_find?_eq_some hfind)
  · intro hlook
    have hid := (h id v hlook).1
    have hmem : v ∈ list := (mem_rows h hlist).mpr (hid ▸ hlook)
    cases hfind : list.find? fun v => decide (v.id = id) with
    | none =>
      have hnone := List.find?_eq_none.mp hfind v hmem
      exact absurd (decide_eq_true hid) hnone
    | some w =>
      have hwid : w.id = id := by simpa using List.find?_some hfind
      have hwlook := (mem_rows h hlist).mp (List.mem_of_find?_eq_some hfind)
      rw [hwid, hlook] at hwlook
      exact hwlook.symm

end Rows

section Lists

open InMemoryActivity

theorem newestFirst_iff {a b : ActiveVisitor} :
    newestFirst a b = true ↔ b.lastSeen < a.lastSeen ∨ a.lastSeen = b.lastSeen ∧ a.id ≤ b.id := by
  unfold newestFirst
  rw [Bool.or_eq_true, Bool.and_eq_true, decide_eq_true_iff, decide_eq_true_iff, beq_iff_eq]

theorem newestFirst_trans (a b c : ActiveVisitor) (hab : newestFirst a b = true)
    (hbc : newestFirst b c = true) : newestFirst a c = true := by
  rw [newestFirst_iff] at hab hbc ⊢
  rcases hab with hab | ⟨hab, hid⟩ <;> rcases hbc with hbc | ⟨hbc, hid'⟩
  · exact .inl (by omega)
  · exact .inl (by omega)
  · exact .inl (by omega)
  · exact .inr ⟨hab.trans hbc, le_trans hid hid'⟩

theorem newestFirst_total (a b : ActiveVisitor) :
    (newestFirst a b || newestFirst b a) = true := by
  rw [Bool.or_eq_true, newestFirst_iff, newestFirst_iff]
  rcases Nat.lt_trichotomy a.lastSeen b.lastSeen with hlt | heq | hgt
  · exact .inr (.inl hlt)
  · exact (le_total a.id b.id).imp (fun h => .inr ⟨heq, h⟩) fun h => .inr ⟨heq.symm, h⟩
  · exact .inl (.inl hgt)

theorem nodup_active {windowSecs now : Nat} (hall : ById all) :
    (active ⟨windowSecs, all⟩ now).1.Nodup := by
  refine (List.mergeSort_perm _ _).nodup_iff.mpr ?_
  have hvisitors := List.Nodup.of_map _ (nodup_ids hall (.refl _))
  exact hvisitors.sublist (List.filter_sublist.map _)

/-- Rows whose pruning a read does not see make the same list. -/
theorem active_of_agrees {windowSecs now : Nat} (hall : ById all)
    (h : Agrees (now - windowSecs) all rows) :
    (active ⟨windowSecs, rows⟩ now).1 = (active ⟨windowSecs, all⟩ now).1 := by
  have hmem : ∀ v, v ∈ (active ⟨windowSecs, rows⟩ now).1 ↔
      v ∈ (active ⟨windowSecs, all⟩ now).1 := by
    intro v
    rw [mem_active, mem_active]
    constructor
    · rintro ⟨id, hlook, hsince⟩
      exact ⟨id, h.sub hlook, hsince⟩
    · rintro ⟨id, hlook, hsince⟩
      rcases h id with hsame | ⟨_, hold⟩
      · exact ⟨id, hsame.trans hlook, hsince⟩
      · exact absurd hsince (Nat.not_le_of_lt (hold v hlook))
  have hperm := (List.perm_ext_iff_of_nodup (nodup_active (hall.of_agrees h))
    (nodup_active hall)).mpr hmem
  have hsorted : ∀ {visitors : Table Text ActiveVisitor},
      (active ⟨windowSecs, visitors⟩ now).1.Pairwise fun a b => newestFirst a b = true :=
    List.pairwise_mergeSort newestFirst_trans newestFirst_total _
  refine hperm.eq_of_pairwise (fun a b ha hb hab hba => ?_) hsorted hsorted
  have hids : a.id = b.id := by
    rw [newestFirst_iff] at hab hba
    rcases hab with hab | ⟨hab, hid⟩ <;> rcases hba with hba | ⟨hba, hid'⟩
    · omega
    · omega
    · omega
    · exact le_antisymm hid hid'
  obtain ⟨id, hlook, _⟩ := mem_active.mp ((hmem a).mp ha)
  obtain ⟨id', hlook', _⟩ := mem_active.mp hb
  have hid : id = id' := (hall id a hlook).1.symm.trans (hids.trans (hall id' b hlook').1)
  rw [hid] at hlook
  exact Option.some.inj (hlook.symm.trans hlook')

/-- A store counts the rows that it lists. -/
theorem length_active (activity : InMemoryActivity) (now : Nat) :
    (activity.active now).1.length = activity.count now := by
  unfold active count
  rw [List.length_mergeSort, List.length_map]
  rfl

end Lists

end FileActivity

namespace FileActivityRun

open FileActivity

variable {windowSecs : Nat} {s : FileActivityRun}

theorem inMemory_eq (windowSecs : Nat) (s : FileActivityRun) :
    s.inMemory windowSecs = ⟨windowSecs, s.visitors.foldl journal.apply ∅⟩ := by
  have hfold : ∀ (visitors : List ActiveVisitor) (rows : Table Text ActiveVisitor),
      visitors.foldl InMemoryActivity.record ⟨windowSecs, rows⟩ =
        ⟨windowSecs, visitors.foldl journal.apply rows⟩ := by
    intro visitors
    induction visitors with
    | nil => exact fun _ => rfl
    | cons v visitors ih => exact fun rows => ih _
  exact hfold s.visitors ∅

/-- What a run keeps: the map in memory and the files hold the acknowledged rows, but for some that
are too old for the next read. -/
structure Sound (windowSecs : Nat) (s : FileActivityRun) : Prop where
  window : s.store.inner.windowSecs = windowSecs
  byId : ById (s.visitors.foldl journal.apply ∅)
  memory : Agrees (s.readAt - windowSecs) (s.visitors.foldl journal.apply ∅)
    s.store.inner.visitors
  files : Agrees (s.readAt - windowSecs) (s.visitors.foldl journal.apply ∅)
    (journal.recover s.store.disk.snapshot s.store.disk.wal)

theorem Sound.record (h : s.Sound windowSecs) (hwhole : tornTail s.store.disk.wal = [])
    {visitor : ActiveVisitor} (htime : visitor.lastSeen < 2 ^ 64) {rows : List ActiveVisitor}
    {store : FileBackedActivity}
    (hrows : rows.Perm ((s.store.inner.record visitor).visitors.entries.map fun e => e.2))
    (hrecord : s.store.record visitor rows = (store, true)) :
    Sound windowSecs { s with store, visitors := s.visitors ++ [visitor] } := by
  unfold FileBackedActivity.record at hrecord
  dsimp only at hrecord
  split at hrecord
  next => cases hrecord
  next disk happend =>
    obtain ⟨hframable, rfl⟩ := FileBanRun.append_eq_some happend
    have hkept := kept_of_framable hframable htime
    have hfold : (s.visitors ++ [visitor]).foldl journal.apply ∅ =
        journal.apply (s.visitors.foldl journal.apply ∅) visitor := by
      rw [List.foldl_append]
      rfl
    have hall : ById ((s.visitors ++ [visitor]).foldl journal.apply ∅) := by
      rw [hfold]
      exact h.byId.apply hkept
    have hmemory : Agrees (s.readAt - windowSecs)
        ((s.visitors ++ [visitor]).foldl journal.apply ∅)
        (s.store.inner.record visitor).visitors := by
      rw [hfold]
      exact h.memory.apply visitor
    split at hrecord
    next =>
      cases hrecord
      exact ⟨h.window, hall, hmemory, hmemory.of_lookup
        (lookup_recover_snapshot (hall.of_agrees hmemory) hrows)⟩
    next =>
      cases hrecord
      refine ⟨h.window, hall, hmemory, ?_⟩
      have hrecover := (Journal.recover_append s.store.disk.snapshot hwhole hkept).1
      have hfiles := h.files.apply visitor
      rw [← hfold, ← hrecover] at hfiles
      exact hfiles

theorem Sound.active (h : s.Sound windowSecs) {now : Nat} (hnow : s.readAt ≤ now) :
    Sound windowSecs { s with store := (s.store.active now).2, readAt := now } := by
  have hle : s.readAt - windowSecs ≤ now - windowSecs := Nat.sub_le_sub_right hnow windowSecs
  refine ⟨h.window, h.byId, ?_, h.files.mono hle⟩
  have hretain := (h.memory.mono hle).retain
  rw [← h.window] at hretain ⊢
  exact hretain

/-- Files that hold the rows are opened to them. -/
theorem Sound.opened (h : s.Sound windowSecs) {disk : Disk}
    (hfiles : journal.recover disk.snapshot disk.wal =
      journal.recover s.store.disk.snapshot s.store.disk.wal) :
    Sound windowSecs { s with store := .openFiles s.store.inner.windowSecs disk } := by
  have hagrees : Agrees (s.readAt - windowSecs) (s.visitors.foldl journal.apply ∅)
      (journal.recover disk.snapshot disk.wal) := by
    rw [hfiles]
    exact h.files
  exact ⟨h.window, h.byId, hagrees, hagrees⟩

/-- In every run, the list and the count of a store on files are those of a store in memory that
never read, pruned or restarted, and stay so when the files are opened again. -/
theorem file_activity_survives (h : (fileActivitySystem windowSecs).Reach InOrder s) {now : Nat}
    (hnow : s.readAt ≤ now) :
    (s.store.active now).1 = ((s.inMemory windowSecs).active now).1 ∧
      ((FileBackedActivity.openFiles windowSecs s.store.disk).active now).1 =
        ((s.inMemory windowSecs).active now).1 ∧
      s.store.count now = (s.inMemory windowSecs).count now ∧
      (FileBackedActivity.openFiles windowSecs s.store.disk).count now =
        (s.inMemory windowSecs).count now := by
  have hstart : ∀ s, (fileActivitySystem windowSecs).start s → s.Sound windowSecs := by
    rintro s rfl
    have hempty : journal.recover none [] = ∅ := Journal.recover_empty
    have hagrees : Agrees (0 - windowSecs) ∅ (journal.recover none []) := by
      rw [hempty]
      exact fun _ => .inl rfl
    exact ⟨rfl, nofun, hagrees, hagrees⟩
  have hsound := h.invariant hstart fun s e s' ih hok hstep => by
    cases hstep with
    | record hrows hrecord => exact ih.record hok.1 hok.2 hrows hrecord
    | active => exact ih.active hok
    | reopen => exact ih.opened rfl
    | crash hframable hkept =>
      exact ih.opened (Journal.recover_append_cut s.store.disk.snapshot hok.1
        (kept_of_framable hframable hok.2) hkept)
  have hle : s.readAt - windowSecs ≤ now - windowSecs := Nat.sub_le_sub_right hnow windowSecs
  have hinner : s.store.inner = ⟨windowSecs, s.store.inner.visitors⟩ := by
    rw [← hsound.window]
  have hmemory : (s.store.active now).1 = ((s.inMemory windowSecs).active now).1 := by
    show (s.store.inner.active now).1 = _
    rw [hinner, inMemory_eq]
    exact active_of_agrees hsound.byId (hsound.memory.mono hle)
  have hfiles : ((FileBackedActivity.openFiles windowSecs s.store.disk).active now).1 =
      ((s.inMemory windowSecs).active now).1 := by
    rw [inMemory_eq]
    exact active_of_agrees hsound.byId (hsound.files.mono hle)
  refine ⟨hmemory, hfiles, ?_, ?_⟩
  · rw [← length_active, ← hmemory]
    exact (length_active s.store.inner now).symm
  · rw [← length_active, ← hfiles]
    exact (length_active (FileBackedActivity.openFiles windowSecs s.store.disk).inner now).symm

/-- A visit, and a crash within the record of the next one. -/
theorem file_activity_survives_crash :
    let bob : ActiveVisitor := ⟨['b', 'o', 'b'], true, none, none, ['/'], ['G', 'E', 'T'], 1000⟩
    ∃ s, (fileActivitySystem 300).Reach InOrder s ∧ s.visitors = [bob] ∧
      ((FileBackedActivity.openFiles 300 s.store.disk).active 1020).1 = [bob] := by
  intro bob
  have hopen : FileBackedActivity.openFiles 300 {} = ⟨⟨300, ∅⟩, {}, 0⟩ := by
    unfold FileBackedActivity.openFiles
    rw [replay_load, Journal.recover_empty]
    rfl
  have hframable : Framable bob.encode := show bob.encode.length < 2 ^ 32 by decide
  have htorn : tornTail (frame bob.encode) = [] :=
    (readFrames_append_frame (tornTail_none rfl) hframable).2
  have hstart : (fileActivitySystem 300).Reach InOrder ⟨.openFiles 300 {}, [], 0⟩ := .start rfl
  have hrecord : (FileBackedActivity.openFiles 300 {}).record bob [bob] =
      (⟨⟨300, (∅ : Table Text ActiveVisitor).insert bob.id bob⟩, ⟨none, frame bob.encode⟩, 1⟩,
        true) := by
    rw [hopen]
    rfl
  have hrows : [bob].Perm
      (((FileBackedActivity.openFiles 300 {}).inner.record bob).visitors.entries.map fun e => e.2) := by
    rw [hopen]
    exact .refl _
  have hseen := hstart.step (e := FileActivityEvent.record bob)
    ⟨show tornTail (FileBackedActivity.openFiles 300 {}).disk.wal = [] from tornTail_none rfl,
      by decide⟩ (FileActivityStep.record hrows hrecord)
  have hrun := hseen.step (e := FileActivityEvent.crash bob 5) ⟨htorn, by decide⟩
    (FileActivityStep.crash hframable (by decide))
  obtain ⟨-, hlist, -⟩ := file_activity_survives hrun (Nat.zero_le _)
  refine ⟨_, hrun, rfl, hlist.trans ?_⟩
  exact List.mergeSort_singleton bob

end FileActivityRun

end Kernway
