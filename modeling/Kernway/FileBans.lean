import Kernway.BanRules
import Kernway.Journal
import Kernway.Persist
import Kernway.RecordCodecs

namespace Kernway

/-- A ban or an unban, as the admin's handler makes it. -/
inductive BanChange
  | ban (target : BanTarget)
  | unban (target : BanTarget)

def BanChange.op : BanChange → BanOp
  | ban target => .ban target
  | unban target => .unban target

def BanChange.rule : BanChange → Option BanRule
  | .ban target => target.rule
  | .unban target => target.rule

namespace FileBans

def checkpointEvery : Nat := 256

def record (tag : UInt8) (payload : Text) : Bytes := tag :: encodeUtf8 payload

/-- The record of a change. -/
def recordOf : BanChange → Bytes
  | .ban (.ip ip) => record 1 ip.display
  | .unban (.ip ip) => record 2 ip.display
  | .ban (.subnet cidr) => record 3 cidr
  | .unban (.subnet cidr) => record 4 cidr
  | .ban (.userAgentContaining phrase) => record 5 (toAsciiLowercase phrase)
  | .unban (.userAgentContaining phrase) => record 6 (toAsciiLowercase phrase)
  | .ban (.userAgentExact agent) => record 7 agent
  | .unban (.userAgentExact agent) => record 8 agent
  | .ban (.user user) => record 9 user
  | .unban (.user user) => record 10 user

def viewRecord : BanRuleView → Bytes
  | .ip ip => record 1 ip.display
  | .subnet cidr => record 3 cidr
  | .userAgentExact agent => record 7 agent
  | .userAgentContains phrase => record 5 phrase
  | .user user => record 9 user

/-- The change that a tag stands for; other tags are of no version known here. -/
def changeOf (tag : UInt8) (value : Text) : Option BanChange :=
  match tag with
  | 1 => (IpAddr.parse value).map fun ip => .ban (.ip ip)
  | 2 => (IpAddr.parse value).map fun ip => .unban (.ip ip)
  | 3 => some (.ban (.subnet value))
  | 4 => some (.unban (.subnet value))
  | 5 => some (.ban (.userAgentContaining value))
  | 6 => some (.unban (.userAgentContaining value))
  | 7 => some (.ban (.userAgentExact value))
  | 8 => some (.unban (.userAgentExact value))
  | 9 => some (.ban (.user value))
  | 10 => some (.unban (.user value))
  | _ => none

/-- The change that `apply` makes of a record, if any. -/
def decodeChange : Bytes → Option BanChange
  | [] => none
  | tag :: payload => (decodeUtf8 payload).bind (changeOf tag)

/-- The ban list and the log of its changes. -/
def journal : Journal BanList BanChange where
  empty := ⟨[]⟩
  apply bans change := bans.apply change.op
  encode := recordOf
  decode := decodeChange

/-- `replay`. -/
def replay (loaded : Loaded) : BanList :=
  loaded.records.foldl journal.applyRecord
    (((loaded.snapshot.map readFrames).getD []).foldl journal.applyRecord ⟨[]⟩)

def snapshotBytes (bans : BanList) : Bytes := bans.views.flatMap fun view => frame (viewRecord view)

end FileBans

structure FileBackedBans where
  bans : BanList
  disk : Disk
  sinceCheckpoint : Nat

namespace FileBackedBans

/-- `FileBackedBans::open`. -/
def openFiles (disk : Disk) : FileBackedBans := ⟨FileBans.replay disk.load, disk, 0⟩

/-- `log`: the files once a record is written, and whether that is acknowledged. -/
def log (store : FileBackedBans) (record : Bytes) : FileBackedBans × Bool :=
  match store.disk.append record with
  | none => (store, false)
  | some disk =>
    if store.sinceCheckpoint + 1 ≥ FileBans.checkpointEvery then
      ({ store with
        disk := disk.checkpoint (FileBans.snapshotBytes store.bans)
        sinceCheckpoint := 0 }, true)
    else ({ store with disk, sinceCheckpoint := store.sinceCheckpoint + 1 }, true)

/-- The ten calls that ban and unban: the list in memory first, then the log. -/
def change (store : FileBackedBans) (change : BanChange) : FileBackedBans × Bool :=
  { store with bans := store.bans.apply change.op }.log (FileBans.recordOf change)

end FileBackedBans

inductive FileBanEvent
  | change (change : BanChange)
  | reopen
  | crash (change : BanChange) (kept : Nat)

/-- A store with the changes that it has acknowledged. -/
structure FileBanRun where
  store : FileBackedBans
  changes : List BanChange := []

/-- A crash comes while a change is written to the log, and leaves the first bytes of its record. -/
inductive FileBanStep : FileBanRun → FileBanEvent → FileBanRun → Prop
  | change {s : FileBanRun} {change : BanChange} {store : FileBackedBans} :
    s.store.change change = (store, true) →
    FileBanStep s (.change change) ⟨store, s.changes ++ [change]⟩
  | reopen {s : FileBanRun} : FileBanStep s .reopen { s with store := .openFiles s.store.disk }
  | crash {s : FileBanRun} {change : BanChange} {kept : Nat} :
    Framable (FileBans.recordOf change) → kept < (frame (FileBans.recordOf change)).length →
    FileBanStep s (.crash change kept)
      { s with
        store := .openFiles
          { s.store.disk with
            wal := s.store.disk.wal ++ (frame (FileBans.recordOf change)).take kept } }

/-- A store from an empty directory on. -/
def fileBanSystem : System FileBanRun FileBanEvent where
  start s := s = ⟨.openFiles {}, []⟩
  step := FileBanStep

/-- Nothing is written behind a torn record. -/
def FileBanRun.BehindWhole (s : FileBanRun) : FileBanEvent → Prop
  | .reopen => True
  | _ => tornTail s.store.disk.wal = []

namespace FileBans

theorem replay_load (disk : Disk) : replay disk.load = journal.recover disk.snapshot disk.wal := rfl

theorem mem_apply_op (bans : BanList) (c : BanChange) (rule : BanRule) :
    rule ∈ (bans.apply c.op).rules ↔
      c.rule = some rule ∧ (∃ target, c = .ban target) ∨ c.rule ≠ some rule ∧ rule ∈ bans.rules := by
  cases c with
  | ban target =>
    rw [BanChange.op, apply_ban, BanChange.rule]
    cases target.rule with
    | none => simp
    | some made =>
      rw [Option.map_some, Option.getD_some, mem_add]
      by_cases heq : made = rule
      · simp [heq]
      · simp [heq, Ne.symm heq]
  | unban target =>
    rw [BanChange.op, apply_unban, BanChange.rule]
    cases target.rule with
    | none => simp
    | some lifted =>
      rw [Option.map_some, Option.getD_some, mem_remove]
      by_cases heq : lifted = rule
      · simp [heq]
      · simp [heq, Ne.symm heq]

section Records

theorem decodeChange_record (tag : UInt8) (payload : Text) :
    decodeChange (record tag payload) = changeOf tag payload := by
  rw [record, decodeChange, decodeUtf8_encodeUtf8, Option.bind_some]

/-- The change that is read from the record of a change does the same. -/
theorem decodeChange_recordOf (change : BanChange) : ∃ again : BanChange,
    decodeChange (recordOf change) = some again ∧
      ∀ bans : BanList, bans.apply again.op = bans.apply change.op := by
  cases change with
  | ban target =>
    cases target with
    | ip ip =>
      refine ⟨.ban (.ip ip), ?_, fun _ => rfl⟩
      rw [recordOf, decodeChange_record, changeOf, IpAddr.parse_display, Option.map_some]
    | userAgentContaining phrase =>
      refine ⟨.ban (.userAgentContaining (toAsciiLowercase phrase)), ?_, fun bans => ?_⟩
      · rw [recordOf, decodeChange_record, changeOf]
      · simp only [BanChange.op, BanList.apply, BanList.addUserAgentContaining,
          toAsciiLowercase_idem]
    | subnet text | userAgentExact text | user text =>
      refine ⟨_, ?_, fun _ => rfl⟩
      rw [recordOf, decodeChange_record, changeOf]
  | unban target =>
    cases target with
    | ip ip =>
      refine ⟨.unban (.ip ip), ?_, fun _ => rfl⟩
      rw [recordOf, decodeChange_record, changeOf, IpAddr.parse_display, Option.map_some]
    | userAgentContaining phrase =>
      refine ⟨.unban (.userAgentContaining (toAsciiLowercase phrase)), ?_, fun bans => ?_⟩
      · rw [recordOf, decodeChange_record, changeOf]
      · simp only [BanChange.op, BanList.apply, BanList.removeUserAgentContaining,
          toAsciiLowercase_idem]
    | subnet text | userAgentExact text | user text =>
      refine ⟨_, ?_, fun _ => rfl⟩
      rw [recordOf, decodeChange_record, changeOf]

theorem kept_of_framable {change : BanChange} (h : Framable (recordOf change)) :
    journal.Kept change := by
  refine ⟨h, fun bans => ?_⟩
  obtain ⟨again, hdecode, hsame⟩ := decodeChange_recordOf change
  unfold Journal.applyRecord
  rw [show journal.decode (journal.encode change) = some again from hdecode]
  exact hsame bans

end Records

section Snapshots

/-- The change that a rule is exported as. -/
def viewChange : BanRuleView → BanChange
  | .ip ip => .ban (.ip ip)
  | .subnet cidr => .ban (.subnet cidr)
  | .userAgentExact agent => .ban (.userAgentExact agent)
  | .userAgentContains phrase => .ban (.userAgentContaining phrase)
  | .user user => .ban (.user user)

theorem apply_viewChange (bans : BanList) (view : BanRuleView) :
    bans.apply (viewChange view).op = bans.addView view := by
  cases view <;> rfl

/-- A rule that a change has made, and whose record is no longer than the change's. -/
def Made (rule : BanRule) : Prop :=
  ∃ target : BanTarget, target.rule = some rule ∧ Framable (recordOf (.ban target))

theorem framable_record {tag tag' : UInt8} {payload payload' : Text}
    (h : (encodeUtf8 payload').length ≤ (encodeUtf8 payload).length)
    (hframable : Framable (record tag payload)) : Framable (record tag' payload') := by
  have hlen : (record tag payload).length < 2 ^ 32 := hframable
  have hlen' : (record tag' payload').length < 2 ^ 32 := by
    unfold record at hlen ⊢
    simp only [List.length_cons] at hlen ⊢
    omega
  exact hlen'

theorem framable_of_length {tag : UInt8} {payload : Text} (h : payload.length ≤ 100) :
    Framable (record tag payload) := by
  have hbytes := length_encodeUtf8_le payload
  have hlen : (record tag payload).length < 2 ^ 32 := by
    unfold record
    rw [List.length_cons]
    omega
  exact hlen

/-- The text of a block has at most fifty characters, a slash and three digits. -/
theorem length_cidr (cidr : Cidr) :
    (cidr.network.display ++ '/' :: Nat.toDigits 10 cidr.bits).length ≤ 100 := by
  have hdisplay := length_display cidr.network
  have hbits : cidr.bits < 10 ^ 3 := by
    have hfits := cidr.fits
    have hwidth : cidr.network.width ≤ 128 := by
      cases cidr.network <;> simp [IpAddr.width]
    omega
  have hdigits : (Nat.toDigits 10 cidr.bits).length ≤ 3 :=
    (Nat.length_toDigits_le_iff (by decide) (by decide)).mpr hbits
  rw [List.length_append, List.length_cons]
  omega

/-- A rule that is read from a snapshot is the rule that was written. -/
theorem Made.kept {rule : BanRule} (h : Made rule) : journal.Kept (viewChange rule.view) := by
  apply kept_of_framable
  obtain ⟨target, hrule, hframable⟩ := h
  cases rule with
  | ip ip => exact framable_of_length (by have := length_display ip; omega)
  | subnet cidr => exact framable_of_length (length_cidr cidr)
  | userAgentExact agent =>
    cases target with
    | subnet text => simp [BanTarget.rule] at hrule
    | ip | userAgentContaining | user => cases hrule
    | userAgentExact text =>
      cases hrule
      exact hframable
  | user name =>
    cases target with
    | subnet text => simp [BanTarget.rule] at hrule
    | ip | userAgentContaining | userAgentExact => cases hrule
    | user text =>
      cases hrule
      exact hframable
  | userAgentContains phrase =>
    cases target with
    | subnet text => simp [BanTarget.rule] at hrule
    | ip | userAgentExact | user => cases hrule
    | userAgentContaining text =>
      cases hrule
      exact framable_record (by rw [toAsciiLowercase_idem]) hframable

theorem Made.viewRecord_eq {rule : BanRule} (h : Made rule) :
    viewRecord rule.view = recordOf (viewChange rule.view) := by
  cases rule with
  | userAgentContains phrase =>
    obtain ⟨target, hrule, -⟩ := h
    cases target with
    | subnet text => simp [BanTarget.rule] at hrule
    | ip | userAgentExact | user => cases hrule
    | userAgentContaining text =>
      cases hrule
      simp only [BanRule.view, viewRecord, viewChange, recordOf, toAsciiLowercase_idem]
  | ip | subnet | userAgentExact | user => rfl

/-- A snapshot of a list that changes have made holds the list. -/
theorem recover_snapshotBytes {bans : BanList} (hnodup : bans.rules.Nodup)
    (hmade : ∀ rule ∈ bans.rules, Made rule) :
    journal.recover (some (snapshotBytes bans)) [] = bans := by
  have hbytes : snapshotBytes bans = journal.pack (bans.views.map viewChange) := by
    unfold snapshotBytes Journal.pack
    rw [List.flatMap_map]
    refine List.flatMap_congr fun view hview => ?_
    obtain ⟨rule, hrule, rfl⟩ := List.mem_map.mp hview
    exact congrArg frame (hmade rule hrule).viewRecord_eq
  have hkept : ∀ change ∈ bans.views.map viewChange, journal.Kept change := by
    intro change hchange
    obtain ⟨view, hview, rfl⟩ := List.mem_map.mp hchange
    obtain ⟨rule, hrule, rfl⟩ := List.mem_map.mp hview
    exact (hmade rule hrule).kept
  rw [hbytes, Journal.recover_pack hkept, List.foldl_map]
  have hfold : (bans.views.foldl (fun s view => journal.apply s (viewChange view)) ⟨[]⟩) =
      bans.views.foldl BanList.addView ⟨[]⟩ := by
    congr 1
    funext list view
    exact apply_viewChange list view
  refine hfold.trans (foldl_addView hnodup fun rule hrule => ?_)
  obtain ⟨target, htarget, -⟩ := hmade rule hrule
  exact ⟨target, htarget⟩

theorem made_apply {bans : BanList} (h : ∀ rule ∈ bans.rules, Made rule) {change : BanChange}
    (hframable : Framable (recordOf change)) : ∀ rule ∈ (bans.apply change.op).rules, Made rule := by
  intro rule hrule
  cases change with
  | ban target =>
    rw [BanChange.op, apply_ban] at hrule
    cases htarget : target.rule with
    | none =>
      rw [htarget] at hrule
      exact h rule hrule
    | some made =>
      rw [htarget] at hrule
      rcases mem_add.mp hrule with hrule | rfl
      · exact h rule hrule
      · exact ⟨target, htarget, hframable⟩
  | unban target =>
    rw [BanChange.op, apply_unban] at hrule
    cases htarget : target.rule with
    | none =>
      rw [htarget] at hrule
      exact h rule hrule
    | some lifted =>
      rw [htarget] at hrule
      exact h rule (mem_remove.mp hrule).1

end Snapshots

end FileBans

namespace FileBanRun

open FileBans

variable {s : FileBanRun}

/-- What a run keeps: the list is what its changes make of an empty one, and what the files hold. -/
structure Sound (s : FileBanRun) : Prop where
  list : s.store.bans = (s.changes.map BanChange.op).foldl BanList.apply ⟨[]⟩
  files : journal.recover s.store.disk.snapshot s.store.disk.wal = s.store.bans
  nodup : s.store.bans.rules.Nodup
  made : ∀ rule ∈ s.store.bans.rules, Made rule

theorem append_eq_some {disk disk' : Disk} {record : Bytes} (h : disk.append record = some disk') :
    Framable record ∧ disk' = { disk with wal := disk.wal ++ frame record } := by
  unfold Disk.append at h
  split at h
  next hlen => exact ⟨hlen, (Option.some.inj h).symm⟩
  next => cases h

theorem Sound.change (h : s.Sound) (hwhole : tornTail s.store.disk.wal = []) {change : BanChange}
    {store : FileBackedBans} (hchange : s.store.change change = (store, true)) :
    Sound ⟨store, s.changes ++ [change]⟩ := by
  unfold FileBackedBans.change FileBackedBans.log at hchange
  dsimp only at hchange
  split at hchange
  next => cases hchange
  next disk happend =>
    obtain ⟨hframable, rfl⟩ := append_eq_some happend
    have hlist : s.store.bans.apply change.op =
        ((s.changes ++ [change]).map BanChange.op).foldl BanList.apply ⟨[]⟩ := by
      rw [List.map_append, List.foldl_append, ← h.list]
      rfl
    have hnodup := nodup_apply h.nodup change.op
    have hmade := made_apply h.made hframable
    split at hchange
    next =>
      cases hchange
      exact ⟨hlist, recover_snapshotBytes hnodup hmade, hnodup, hmade⟩
    next =>
      cases hchange
      refine ⟨hlist, ?_, hnodup, hmade⟩
      have hrecover := (Journal.recover_append s.store.disk.snapshot hwhole
        (kept_of_framable hframable)).1
      rw [h.files] at hrecover
      exact hrecover

/-- Files that hold the list are opened to it. -/
theorem Sound.opened (h : s.Sound) {disk : Disk}
    (hfiles : journal.recover disk.snapshot disk.wal = s.store.bans) :
    Sound { s with store := .openFiles disk } := by
  have hsame : (FileBackedBans.openFiles disk).bans = s.store.bans := hfiles
  refine ⟨hsame.trans h.list, rfl, ?_, ?_⟩
  · rw [hsame]
    exact h.nodup
  · rw [hsame]
    exact h.made

/-- In every run the list is what its acknowledged changes make, whatever restarts and checkpoints
come between, and opening the files again gives that list. -/
theorem file_bans_survive (h : fileBanSystem.Reach BehindWhole s) :
    s.store.bans = (s.changes.map BanChange.op).foldl BanList.apply ⟨[]⟩ ∧
      (FileBackedBans.openFiles s.store.disk).bans = s.store.bans := by
  have hstart : ∀ s, fileBanSystem.start s → s.Sound := by
    rintro s rfl
    have hempty : (FileBackedBans.openFiles {}).bans = ⟨[]⟩ := Journal.recover_empty (j := journal)
    refine ⟨hempty, rfl, ?_, ?_⟩
    · rw [hempty]
      exact List.nodup_nil
    · rw [hempty]
      exact nofun
  have hsound := h.invariant hstart fun s e s' ih hwhole hstep => by
    cases hstep with
    | change hchange => exact ih.change hwhole hchange
    | reopen => exact ih.opened ih.files
    | crash hframable hkept =>
      exact ih.opened ((Journal.recover_append_cut s.store.disk.snapshot hwhole
        (kept_of_framable hframable) hkept).trans ih.files)
  exact ⟨hsound.list, hsound.files⟩

/-- A ban, and a crash within the record of its unban. -/
theorem file_bans_survive_crash : ∃ s, fileBanSystem.Reach BehindWhole s ∧
    s.changes = [.ban (.user ['a'])] ∧ s.store.bans = ⟨[.user ['a']]⟩ ∧
      (FileBackedBans.openFiles s.store.disk).bans = s.store.bans := by
  have hopen : FileBackedBans.openFiles {} = ⟨⟨[]⟩, {}, 0⟩ := by
    unfold FileBackedBans.openFiles
    rw [replay_load, Journal.recover_empty]
    rfl
  have hchange : (FileBackedBans.openFiles {}).change (.ban (.user ['a'])) =
      (⟨⟨[.user ['a']]⟩, ⟨none, frame [9, 97]⟩, 1⟩, true) := by
    rw [hopen]
    rfl
  have hframable : ∀ {record : Bytes}, record.length < 100 → Framable record :=
    fun hlen => show _ < 2 ^ 32 by omega
  have htorn : tornTail (frame [9, 97]) = [] :=
    (readFrames_append_frame (tornTail_none rfl) (hframable (by decide))).2
  have hstart : fileBanSystem.Reach BehindWhole ⟨.openFiles {}, []⟩ := .start rfl
  have hbanned := hstart.step (e := FileBanEvent.change (.ban (.user ['a'])))
    (show tornTail (FileBackedBans.openFiles {}).disk.wal = [] from tornTail_none rfl)
    (FileBanStep.change hchange)
  have hrun := hbanned.step (e := FileBanEvent.crash (.unban (.user ['a'])) 5) htorn
    (FileBanStep.crash (hframable (by decide)) (by decide))
  obtain ⟨hlist, hfiles⟩ := file_bans_survive hrun
  exact ⟨_, hrun, rfl, hlist, hfiles⟩

end FileBanRun

end Kernway
