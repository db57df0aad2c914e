import Kernway.SessionLog

namespace Kernway

/-- The record under a session id once the store is opened on these files. -/
def recovered (disk : Disk) (k : Text) : Option SessionRecord := (replay disk.load).lookup k

/-- The writes that opening the files replays. -/
def Disk.ops (disk : Disk) : List SessionOp :=
  ((disk.snapshot.elim [] framed) ++ readWal disk.wal).filterMap decodeRecord

theorem foldl_applyRecord (records : List Bytes) (inner : MemorySessionStore) :
    records.foldl applyRecord inner =
      (records.filterMap decodeRecord).foldl (fun s op => op.apply s) inner := by
  induction records generalizing inner with
  | nil => rfl
  | cons record records ih =>
    rw [List.foldl_cons, ih]
    cases h : decodeRecord record with
    | none => rw [List.filterMap_cons_none h, applyRecord, h]
    | some op => rw [List.filterMap_cons_some h, List.foldl_cons, applyRecord, h]

theorem recovered_eq (disk : Disk) (k : Text) : recovered disk k = runOn disk.ops k none := by
  have hfold : replay disk.load =
      disk.ops.foldl (fun s op => op.apply s) (∅ : MemorySessionStore) := by
    rw [Disk.ops, ← foldl_applyRecord, List.foldl_append, replay, Disk.load]
    cases disk.snapshot <;> rfl
  rw [recovered, hfold, lookup_foldl_apply, AList.lookup_empty]

/-- A write whose record, if it is an insert, fits the log. -/
def SessionOp.Fits : SessionOp → Prop
  | insert sid record => Framable (insertRecord sid record)
  | _ => True

/-- A record under a session id that fits the log. -/
def FitsOn (k : Text) (v : Option SessionRecord) : Prop :=
  ∀ r, v = some r → Framable (insertRecord k r)

theorem SessionOp.Fits.on {op : SessionOp} {k : Text} {v : Option SessionRecord} (h : op.Fits)
    (hv : FitsOn k v) : FitsOn k (op.on k v) := by
  intro r hr
  cases op with
  | insert sid record =>
    simp only [SessionOp.on] at hr
    split at hr
    next hk =>
      cases Option.some.inj hr
      subst hk
      exact h
    next => exact hv r hr
  | touch sid time =>
    simp only [SessionOp.on] at hr
    split at hr
    next =>
      obtain ⟨r', hr', rfl⟩ := Option.map_eq_some_iff.mp hr
      have hfit := hv r' hr'
      rw [Framable, length_insertRecord] at hfit ⊢
      exact hfit
    next => exact hv r hr
  | remove sid =>
    simp only [SessionOp.on] at hr
    split at hr
    next => simp at hr
    next => exact hv r hr
  | removeUser user => exact hv r (Option.filter_eq_some_iff.mp hr).1

theorem fitsOn_runOn {ops : List SessionOp} (h : ∀ op ∈ ops, op.Fits) {k : Text}
    {v : Option SessionRecord} (hv : FitsOn k v) : FitsOn k (runOn ops k v) := by
  induction ops generalizing v with
  | nil => exact hv
  | cons op ops ih =>
    exact ih (fun x hx => h x (List.mem_cons_of_mem op hx)) ((h op (List.mem_cons_self ..)).on hv)

theorem Disk.ops_fits (disk : Disk) : ∀ op ∈ disk.ops, op.Fits := by
  intro op hop
  obtain ⟨record, hrec, hdec⟩ := List.mem_filterMap.mp hop
  have hframe : Framable record := by
    rcases List.mem_append.mp hrec with hsnap | hwal
    · cases hs : disk.snapshot with
      | none => simp [hs] at hsnap
      | some snapshot => exact framable_of_mem_readFrames (by simpa [hs, framed] using hsnap)
    · exact framable_of_mem_readFrames hwal
  cases op with
  | insert sid r => exact Nat.lt_of_le_of_lt (length_insertRecord_le hdec) hframe
  | _ => trivial

theorem fitsOn_recovered (disk : Disk) (k : Text) : FitsOn k (recovered disk k) := by
  rw [recovered_eq]
  exact fitsOn_runOn disk.ops_fits fun _ h => nomatch h

/-- A write too long for the log changes nothing where every session fits it. -/
theorem SessionOp.Fits.on_of_not_framable {op : SessionOp} (h : op.Fits)
    (hlong : ¬ Framable (recordOf op)) {k : Text} {v : Option SessionRecord} (hv : FitsOn k v) :
    op.on k v = v := by
  have hlen : 2 ^ 32 ≤ (recordOf op).length := Nat.le_of_not_lt hlong
  cases v with
  | none =>
    cases op with
    | insert sid record => exact absurd h hlong
    | _ => simp [SessionOp.on]
  | some r =>
    have hr : (insertRecord k r).length < 2 ^ 32 := hv r rfl
    rw [length_insertRecord] at hr
    cases op with
    | insert sid record => exact absurd h hlong
    | touch sid time =>
      simp only [recordOf, List.length_cons, List.length_append, length_putStr,
        length_putU64] at hlen
      have hk : k ≠ sid := by rintro rfl; omega
      rw [SessionOp.on, if_neg hk]
    | remove sid =>
      simp only [recordOf, List.length_cons, length_putStr] at hlen
      have hk : k ≠ sid := by rintro rfl; omega
      rw [SessionOp.on, if_neg hk]
    | removeUser user =>
      simp only [recordOf, List.length_cons, length_putStr] at hlen
      have hu : r.user ≠ user := by rintro rfl; omega
      simp [SessionOp.on, hu]

/-- The files once a write is logged, where its record is too long as they were. -/
def Disk.log (disk : Disk) (op : SessionOp) : Disk := (disk.append (recordOf op)).getD disk

theorem Disk.log_framable {op : SessionOp} (h : Framable (recordOf op)) (disk : Disk) :
    disk.log op = { disk with wal := disk.wal ++ frame (recordOf op) } := by
  have hlen : (recordOf op).length < 2 ^ 32 := h
  rw [Disk.log, Disk.append, if_pos hlen, Option.getD_some]

theorem Disk.log_not_framable {op : SessionOp} (h : ¬ Framable (recordOf op)) (disk : Disk) :
    disk.log op = disk := by
  have hlen : ¬ (recordOf op).length < 2 ^ 32 := h
  rw [Disk.log, Disk.append, if_neg hlen, Option.getD_none]

theorem recovered_log {disk : Disk} {op : SessionOp} (htorn : tornTail disk.wal = [])
    (h : op.Fits) (k : Text) : recovered (disk.log op) k = op.on k (recovered disk k) := by
  by_cases hlen : Framable (recordOf op)
  · have hops : (disk.log op).ops = disk.ops ++ [op] := by
      rw [Disk.log_framable hlen, Disk.ops, Disk.ops, readWal, readWal,
        (readFrames_append_frame htorn hlen).1, ← List.append_assoc, List.filterMap_append,
        List.filterMap_cons_some (decodeRecord_recordOf hlen), List.filterMap_nil]
    rw [recovered_eq, recovered_eq, hops, runOn_append]
    rfl
  · rw [Disk.log_not_framable hlen, h.on_of_not_framable hlen (fitsOn_recovered disk k)]

theorem tornTail_log {disk : Disk} (op : SessionOp) (htorn : tornTail disk.wal = []) :
    tornTail (disk.log op).wal = [] := by
  by_cases hlen : Framable (recordOf op)
  · rw [Disk.log_framable hlen]
    exact (readFrames_append_frame htorn hlen).2
  · rwa [Disk.log_not_framable hlen]

theorem runOn_inserts {entries : List (Σ _ : Text, SessionRecord)} (h : entries.NodupKeys)
    (k : Text) (v : Option SessionRecord) :
    runOn (entries.map fun e => .insert e.1 e.2) k v = (entries.dlookup k).or v := by
  induction entries generalizing v with
  | nil => rfl
  | cons e entries ih =>
    obtain ⟨hnot, hrest⟩ := List.nodupKeys_cons.mp h
    rw [List.map_cons, runOn_cons, ih hrest, SessionOp.on]
    split
    next hk =>
      subst hk
      rw [List.dlookup_cons_eq, List.dlookup_eq_none.mpr hnot]
      rfl
    next hk => rw [List.dlookup_cons_ne _ _ hk]

/-- A snapshot restores what was in the registry when it was taken. -/
theorem recovered_snapshot {inner : MemorySessionStore} (hfit : ∀ k, FitsOn k (inner.lookup k))
    {entries : List (Σ _ : Text, SessionRecord)} (h : entries.Perm inner.entries) (k : Text) :
    recovered ⟨some (snapshotBytes entries), []⟩ k = inner.lookup k := by
  have hnodup : entries.NodupKeys := (List.perm_nodupKeys h).mpr inner.nodupKeys
  have hframe : ∀ e ∈ entries, Framable (insertRecord e.1 e.2) := fun e he =>
    hfit e.1 e.2 (AList.mem_lookup_iff.mpr (h.mem_iff.mp he))
  have hframed : framed (snapshotBytes entries) = entries.map fun e => insertRecord e.1 e.2 := by
    have hall : ∀ r ∈ entries.map fun e => insertRecord e.1 e.2, Framable r := by
      intro r hr
      obtain ⟨e, he, rfl⟩ := List.mem_map.mp hr
      exact hframe e he
    have hmap := readFrames_flatMap_frame hall
    rwa [List.flatMap_map] at hmap
  have hops : Disk.ops ⟨some (snapshotBytes entries), []⟩ =
      entries.map fun e => SessionOp.insert e.1 e.2 := by
    rw [Disk.ops, readWal, readFrames_none rfl, List.append_nil, Option.elim_some, hframed,
      List.filterMap_map]
    rw [← List.filterMap_eq_map]
    exact List.filterMap_congr fun e he => decodeInsert_insertRecord (hframe e he)
  rw [recovered_eq, hops, runOn_inserts hnodup, Option.or_none]
  exact List.perm_dlookup k hnodup h

/-- The files once a checkpoint has renamed its snapshot into place, the log not truncated yet. -/
def Disk.renamed (disk : Disk) (snapshot : Bytes) : Disk := { disk with snapshot := some snapshot }

/-- The writes of the log, on top of what the snapshot alone restores. -/
theorem recovered_wal (disk : Disk) (k : Text) : recovered disk k =
    runOn ((readWal disk.wal).filterMap decodeRecord) k (recovered ⟨disk.snapshot, []⟩ k) := by
  have hsnap : Disk.ops ⟨disk.snapshot, []⟩ =
      (disk.snapshot.elim [] framed).filterMap decodeRecord := by
    rw [Disk.ops, readWal, readFrames_none rfl, List.append_nil]
  rw [recovered_eq, recovered_eq, hsnap, Disk.ops, List.filterMap_append, runOn_append]

theorem recovered_renamed (disk : Disk) {entries : List (Σ _ : Text, SessionRecord)}
    (h : entries.Perm (replay disk.load).entries) (k : Text) :
    recovered (disk.renamed (snapshotBytes entries)) k = recovered disk k := by
  have hsnap := recovered_snapshot (fitsOn_recovered disk) h k
  have hdisk := recovered_wal disk k
  rw [recovered_wal]
  dsimp only [Disk.renamed]
  rw [hsnap, ← recovered, hdisk, runOn_twice]

/-- The history of a registry leaves it as it is when replayed on top of a snapshot of it, and so
the files of a checkpoint hold the same sessions before the rename, after it, and after the
truncation. -/
theorem replay_over_checkpoint (s₀ : MemorySessionStore) (h : List SessionOp) (disk : Disk) :
    (∀ entries : List (Σ _ : Text, SessionRecord),
      entries.Perm (h.foldl (fun s op => op.apply s) s₀).entries → ∀ k,
      (h.foldl (fun s op => op.apply s)
        (entries.foldl (fun s e => AList.insert e.1 e.2 s) ∅)).lookup k =
          (h.foldl (fun s op => op.apply s) s₀).lookup k) ∧
    (∀ entries : List (Σ _ : Text, SessionRecord), entries.Perm (replay disk.load).entries → ∀ k,
      recovered (disk.renamed (snapshotBytes entries)) k = recovered disk k ∧
        recovered (disk.checkpoint (snapshotBytes entries)) k = recovered disk k) := by
  refine ⟨fun entries hperm k => ?_, fun entries hperm k => ⟨recovered_renamed disk hperm k, ?_⟩⟩
  · have hnodup : entries.NodupKeys := (List.perm_nodupKeys hperm).mpr (AList.nodupKeys _)
    have hinserts : entries.foldl (fun s e => AList.insert e.1 e.2 s) (∅ : MemorySessionStore) =
        (entries.map fun e => SessionOp.insert e.1 e.2).foldl (fun s op => op.apply s) ∅ := by
      rw [List.foldl_map]
      rfl
    have hsame : entries.dlookup k = (h.foldl (fun s op => op.apply s) s₀).lookup k :=
      List.perm_dlookup k hnodup hperm
    rw [lookup_foldl_apply, hinserts, lookup_foldl_apply, AList.lookup_empty,
      runOn_inserts hnodup, Option.or_none, hsame, lookup_foldl_apply, runOn_twice]
  · exact recovered_snapshot (fitsOn_recovered disk) hperm k

/-- A login, a logout of its user and a second login under the same id, all in the log. -/
def loginAgain : List SessionOp :=
  [.insert ['a'] ⟨['u'], 1, 1, []⟩, .removeUser ['u'], .insert ['a'] ⟨['u'], 2, 2, []⟩,
    .touch ['a'] 9]

theorem replay_over_checkpoint_loginAgain :
    let s := loginAgain.foldl (fun s op => op.apply s) (∅ : MemorySessionStore)
    let disk : Disk := ⟨none, loginAgain.flatMap fun op => frame (recordOf op)⟩
    (loginAgain.foldl (fun s op => op.apply s)
      (s.entries.foldl (fun s e => AList.insert e.1 e.2 s) ∅)).lookup ['a'] =
        some ⟨['u'], 2, 9, []⟩ ∧
      recovered (disk.renamed (snapshotBytes (replay disk.load).entries)) ['a'] =
        some ⟨['u'], 2, 9, []⟩ := by
  intro s disk
  have h := replay_over_checkpoint ∅ loginAgain disk
  refine ⟨(h.1 s.entries (.refl _) ['a']).trans ?_, (h.2 _ (.refl _) ['a']).1.trans ?_⟩
  · decide +kernel
  · decide +kernel

end Kernway
