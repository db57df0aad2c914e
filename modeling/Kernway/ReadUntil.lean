import Kernway.Reads
import Mathlib.Data.List.Infix

namespace Kernway

/-- What a `Vec<u8>` cannot hold. -/
def capacity : Nat := 2 ^ 63

/-- Reads until what has been read gives an answer; an error is one of the answer, of a stream that
ends before it, or of a buffer that cannot grow. -/
def readUntil {α ε : Type} (answer : Bytes → Except ε (Option α)) (closed full : ε) (buf : Bytes)
    (reads : List Chunk) : Except ε (α × List Chunk) :=
  match answer buf with
  | .error e => .error e
  | .ok (some a) => .ok (a, reads)
  | .ok none =>
    match reads with
    | [] => .error closed
    | chunk :: reads =>
      if capacity ≤ (buf ++ chunk.val).length then .error full
      else readUntil answer closed full (buf ++ chunk.val) reads
termination_by structural reads

/-- The reads come to the property with their last one. -/
def First (p : Bytes → Prop) (reads : List Chunk) : Prop :=
  p (received reads) ∧ ∀ before, before <+: reads → before ≠ reads → ¬p (received before)

theorem received_append (reads more : List Chunk) :
    received (reads ++ more) = received reads ++ received more := by
  simp [received]

/-- Of the beginnings of one list of reads only one is the first to come to a property. -/
theorem First.unique {p : Bytes → Prop} {done done' reads : List Chunk} (h : First p done)
    (h' : First p done') (hdone : done <+: reads) (hdone' : done' <+: reads) : done = done' := by
  by_contra hne
  rcases List.prefix_or_prefix_of_prefix hdone hdone' with hle | hle
  · exact h'.2 done hle hne h.1
  · exact h.2 done' hle (Ne.symm hne) h'.1

/-- A beginning of a longer list of reads is one of what was there, all of it, or longer. -/
theorem before_or_within {before done more : List Chunk} (h : before <+: done ++ more) :
    (before <+: done ∧ before ≠ done) ∨ ∃ d, d <+: more ∧ before = done ++ d := by
  by_cases hle : before <+: done
  · by_cases heq : before = done
    · exact .inr ⟨[], List.nil_prefix, by rw [heq, List.append_nil]⟩
    · exact .inl ⟨hle, heq⟩
  · have hdone : done <+: before :=
      (List.prefix_or_prefix_of_prefix h (List.prefix_append done more)).resolve_left hle
    obtain ⟨d, rfl⟩ := hdone
    exact .inr ⟨d, (List.prefix_append_right_inj done).mp h, rfl⟩

/-- What was read when the answer came, and that no read before gave one. -/
theorem readUntil_eq_ok {α ε : Type} {answer : Bytes → Except ε (Option α)} {closed full : ε}
    {buf : Bytes} {reads rest : List Chunk} {a : α}
    (h : readUntil answer closed full buf reads = .ok (a, rest)) :
    ∃ done, reads = done ++ rest ∧ answer (buf ++ received done) = .ok (some a) ∧
      (∀ before, before <+: done → before ≠ done →
        answer (buf ++ received before) = .ok none) ∧
      (buf.length < capacity → (buf ++ received done).length < capacity) := by
  induction reads generalizing buf with
  | nil =>
    unfold readUntil at h
    split at h
    next => simp at h
    next a' ha =>
      obtain ⟨rfl, rfl⟩ := Prod.mk.inj (Except.ok.inj h)
      refine ⟨[], rfl, by rwa [received, List.map_nil, List.flatten_nil, List.append_nil], ?_, ?_⟩
      · intro before hle hne
        exact absurd (List.prefix_nil.mp hle) hne
      · simp [received]
    next => simp at h
  | cons chunk reads ih =>
    unfold readUntil at h
    split at h
    next => simp at h
    next a' ha =>
      obtain ⟨rfl, rfl⟩ := Prod.mk.inj (Except.ok.inj h)
      refine ⟨[], rfl, by rwa [received, List.map_nil, List.flatten_nil, List.append_nil], ?_, ?_⟩
      · intro before hle hne
        exact absurd (List.prefix_nil.mp hle) hne
      · simp [received]
    next ha =>
      dsimp only at h
      split at h
      next => simp at h
      next hcap =>
        obtain ⟨done, rfl, hdone, hbefore, hfits⟩ := ih h
        refine ⟨chunk :: done, rfl, by rwa [append_received_cons], ?_, fun _ => ?_⟩
        · intro before hle hne
          cases before with
          | nil => rwa [received, List.map_nil, List.flatten_nil, List.append_nil]
          | cons c before =>
            obtain ⟨rfl, htail⟩ := List.cons_prefix_cons.mp hle
            rw [append_received_cons]
            exact hbefore before htail fun heq => hne (by rw [heq])
        · rw [append_received_cons]
          exact hfits (Nat.lt_of_not_le hcap)

end Kernway
