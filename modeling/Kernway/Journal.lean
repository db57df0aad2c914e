import Kernway.LengthPrefix

namespace Kernway

/-- A state and its changes, and how a change is written to a log and read from it again. -/
structure Journal (σ ω : Type) where
  empty : σ
  apply : σ → ω → σ
  encode : ω → List UInt8
  decode : List UInt8 → Option ω

namespace Journal

variable {σ ω : Type} (j : Journal σ ω)

/-- A record that does not decode changes nothing. -/
def applyRecord (s : σ) (record : List UInt8) : σ :=
  match j.decode record with
  | some change => j.apply s change
  | none => s

/-- The state that a snapshot and a log hold, each the records of changes. -/
def recover (snapshot : Option (List UInt8)) (log : List UInt8) : σ :=
  (readFrames log).foldl j.applyRecord
    (((snapshot.map readFrames).getD []).foldl j.applyRecord j.empty)

/-- Changes packed into a snapshot. -/
def pack (changes : List ω) : List UInt8 := changes.flatMap fun change => frame (j.encode change)

/-- A change that fits its frame and does the same when it is read again. -/
structure Kept (change : ω) : Prop where
  framable : Framable (j.encode change)
  again : ∀ s, j.applyRecord s (j.encode change) = j.apply s change

variable {j} {log : List UInt8}

theorem foldl_encode {changes : List ω} (h : ∀ change ∈ changes, j.Kept change) (s : σ) :
    (changes.map j.encode).foldl j.applyRecord s = changes.foldl j.apply s := by
  induction changes generalizing s with
  | nil => rfl
  | cons change changes ih =>
    rw [List.map_cons, List.foldl_cons, List.foldl_cons, (h change List.mem_cons_self).again,
      ih fun c hc => h c (List.mem_cons_of_mem change hc)]

/-- A change behind whole records is replayed last. -/
theorem recover_append (snapshot : Option (List UInt8)) (h : tornTail log = []) {change : ω}
    (hkept : j.Kept change) :
    j.recover snapshot (log ++ frame (j.encode change)) =
        j.apply (j.recover snapshot log) change ∧
      tornTail (log ++ frame (j.encode change)) = [] := by
  obtain ⟨hread, htorn⟩ := readFrames_append_frame h hkept.framable
  refine ⟨?_, htorn⟩
  unfold recover
  rw [hread, List.foldl_append, List.foldl_cons, List.foldl_nil, hkept.again]

/-- A change written in part behind whole records is not replayed. -/
theorem recover_append_cut (snapshot : Option (List UInt8)) (h : tornTail log = []) {change : ω}
    (hkept : j.Kept change) {n : Nat} (hn : n < (frame (j.encode change)).length) :
    j.recover snapshot (log ++ (frame (j.encode change)).take n) = j.recover snapshot log := by
  unfold recover
  rw [readFrames_append_cut h hkept.framable hn]

/-- A snapshot with an empty log holds the changes that are packed into it. -/
theorem recover_pack {changes : List ω} (h : ∀ change ∈ changes, j.Kept change) :
    j.recover (some (j.pack changes)) [] = changes.foldl j.apply j.empty := by
  have hframes : readFrames (j.pack changes) = changes.map j.encode := by
    have hall : ∀ record ∈ changes.map j.encode, Framable record := by
      intro record hrecord
      obtain ⟨change, hchange, rfl⟩ := List.mem_map.mp hrecord
      exact (h change hchange).framable
    have hread := readFrames_flatMap_frame hall
    rwa [List.flatMap_map] at hread
  unfold recover
  rw [readFrames_none rfl, List.foldl_nil, Option.map_some, Option.getD_some, hframes,
    foldl_encode h]

/-- A log is replayed over what its snapshot holds. -/
theorem recover_eq (snapshot : Option (List UInt8)) (log : List UInt8) :
    j.recover snapshot log = (readFrames log).foldl j.applyRecord (j.recover snapshot []) := by
  have hnil : readFrames [] = [] := readFrames_none rfl
  unfold recover
  rw [hnil, List.foldl_nil]

theorem recover_empty : j.recover none [] = j.empty := by
  unfold recover
  rw [readFrames_none rfl]
  rfl

end Journal

end Kernway
