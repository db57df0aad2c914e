import Kernway.LengthPrefix
import Kernway.Runs
import Kernway.Utf8

namespace Kernway

/-- The files of a store's directory. A `wal` not created yet is empty. -/
structure Disk where
  snapshot : Option Bytes := none
  wal : Bytes := []
  deriving DecidableEq

structure Loaded where
  snapshot : Option Bytes
  records : List Bytes
  deriving DecidableEq

/-- `read_wal`: the complete records of the log, a torn tail dropped. -/
def readWal (wal : Bytes) : List Bytes := readFrames wal

/-- What `Persister::open` recovers. It leaves the files as they are. -/
def Disk.load (disk : Disk) : Loaded := ⟨disk.snapshot, readWal disk.wal⟩

/-- `Writer::append`, `none` where the record does not fit its length field. -/
def Disk.append (disk : Disk) (record : Bytes) : Option Disk :=
  if record.length < 2 ^ 32 then some { disk with wal := disk.wal ++ frame record } else none

def Disk.checkpoint (_ : Disk) (snapshot : Bytes) : Disk := ⟨some snapshot, []⟩

inductive PersistEvent
  | reopen
  | append (record : Bytes)
  | checkpoint (snapshot : Bytes)
  | crash (record : Bytes) (kept : Nat)
  deriving DecidableEq

/-- The files, whether a process has them open, and what it has acknowledged: the last snapshot and
the records since. -/
structure PersistState where
  disk : Disk := {}
  isOpen : Bool := false
  snapshot : Option Bytes := none
  acknowledged : List Bytes := []

/-- A crash leaves the first `kept` bytes of a record that was being appended. -/
inductive PersistStep : PersistState → PersistEvent → PersistState → Prop
  | reopen {s : PersistState} : PersistStep s .reopen { s with isOpen := true }
  | append {s : PersistState} {record : Bytes} {disk : Disk} : s.isOpen = true →
    s.disk.append record = some disk →
    PersistStep s (.append record) { s with disk, acknowledged := s.acknowledged ++ [record] }
  | checkpoint {s : PersistState} {snapshot : Bytes} : s.isOpen = true →
    PersistStep s (.checkpoint snapshot)
      { s with disk := s.disk.checkpoint snapshot, snapshot := some snapshot, acknowledged := [] }
  | crash {s : PersistState} {record : Bytes} {kept : Nat} : s.isOpen = true →
    record.length < 2 ^ 32 →
    PersistStep s (.crash record kept)
      { s with
        disk := { s.disk with wal := s.disk.wal ++ (frame record).take kept }
        isOpen := false }

/-- A store from an empty directory on. -/
def persistSystem : System PersistState PersistEvent where
  start s := s = {}
  step := PersistStep

/-- Opening returns the last snapshot and exactly what has been acknowledged since. -/
def PersistState.Durable (s : PersistState) : Prop := s.disk.load = ⟨s.snapshot, s.acknowledged⟩

/-- A record is only written to a log without a torn tail, and a crash cuts it short. -/
def WholeLog (s : PersistState) : PersistEvent → Prop
  | .append _ => tornTail s.disk.wal = []
  | .crash record kept =>
    kept = 0 ∨ tornTail s.disk.wal = [] ∧ kept < (frame record).length
  | _ => True

theorem PersistStep.durable {s s' : PersistState} {e : PersistEvent} (h : PersistStep s e s')
    (hd : s.Durable) (hw : WholeLog s e) : s'.Durable := by
  obtain ⟨hsnap, hrec⟩ := by simpa only [PersistState.Durable, Disk.load, Loaded.mk.injEq] using hd
  simp only [PersistState.Durable, Disk.load, Loaded.mk.injEq]
  cases h with
  | reopen => exact ⟨hsnap, hrec⟩
  | @append record disk _ happ =>
    unfold Disk.append at happ
    split at happ
    next hlen =>
      cases Option.some.inj happ
      refine ⟨hsnap, ?_⟩
      rw [readWal, (readFrames_append_frame hw hlen).1, ← hrec]
      rfl
    next => simp at happ
  | checkpoint => exact ⟨rfl, readFrames_none rfl⟩
  | crash _ hlen =>
    refine ⟨hsnap, ?_⟩
    rcases hw with rfl | ⟨htorn, hkept⟩
    · simpa using hrec
    · rw [readWal, readFrames_append_cut htorn hlen hkept]
      exact hrec

/-- Every state of a run that never writes behind a torn tail is durable. -/
theorem durable_of_wholeLog {s : PersistState} (h : persistSystem.Reach WholeLog s) : s.Durable :=
  h.invariant (fun _ hs => by subst hs; exact congrArg _ (readFrames_none rfl))
    fun _ _ _ hd hw hs => PersistStep.durable hs hd hw

/-- Open, append a record, crash within the next one, open again, checkpoint, append. -/
theorem durable_of_wholeLog_crash :
    (PersistState.mk ⟨some [9], frame [8]⟩ true (some [9]) [[8]]).Durable := by
  refine durable_of_wholeLog (.step (e := .append [8]) (.step (e := .checkpoint [9])
    (.step (e := .reopen) (.step (e := .crash [5] 3) (.step (e := .append [7])
      (.step (e := .reopen) (.start rfl) trivial .reopen) ?_ (.append rfl rfl)) ?_
      (.crash rfl (by decide))) trivial .reopen) trivial (.checkpoint rfl)) ?_ (.append rfl rfl))
  · exact tornTail_none rfl
  · exact .inr ⟨by decide +kernel, by decide⟩
  · exact tornTail_none rfl

/-- After a crash within a record, what is acknowledged next is read as part of that record. -/
theorem not_durable : ¬ ∀ s, persistSystem.Reachable s → s.Durable := by
  intro h
  have hrun : persistSystem.Reachable
      (PersistState.mk ⟨none, [1, 0, 0, 0] ++ frame [7]⟩ true none [[7]]) :=
    .step (e := .append [7]) (.step (e := .reopen) (.step (e := .crash [5] 4)
      (.step (e := .reopen) (.start rfl) trivial .reopen) trivial (.crash rfl (by decide)))
      trivial .reopen) trivial (.append rfl rfl)
  have hload := h _ hrun
  revert hload
  unfold PersistState.Durable
  decide +kernel

end Kernway
