import Mathlib.Data.List.Basic

namespace Kernway

/-- A decoder that keeps a state between reads. From a state and the elements at hand it gives the
next state, what it has decoded, and the elements it leaves for the next read. -/
structure Resumable (σ α β ε : Type) where
  pull : σ → List α → Except ε (σ × List β × List α)
  pull_nil : ∀ s, pull s [] = .ok (s, [], [])
  pull_append : ∀ s buf ext, pull s (buf ++ ext) = (pull s buf).bind fun first =>
    (pull first.1 (first.2.2 ++ ext)).map fun next => (next.1, first.2.1 ++ next.2.1, next.2.2)

namespace Resumable

variable {σ α β ε : Type} (d : Resumable σ α β ε)

/-- One read: the new elements join what was left, and what is decoded of them what was before. -/
def feed (progress : Except ε (σ × List β × List α)) (chunk : List α) :
    Except ε (σ × List β × List α) :=
  progress.bind fun first =>
    (d.pull first.1 (first.2.2 ++ chunk)).map fun next =>
      (next.1, first.2.1 ++ next.2.1, next.2.2)

def run (s : σ) (chunks : List (List α)) : Except ε (σ × List β × List α) :=
  chunks.foldl d.feed (.ok (s, [], []))

/-- Reads of any size give what one read of the whole stream gives. -/
theorem run_eq_pull (s : σ) (chunks : List (List α)) :
    d.run s chunks = d.pull s chunks.flatten := by
  suffices h : ∀ buf, chunks.foldl d.feed (d.pull s buf) = d.pull s (buf ++ chunks.flatten) by
    rw [run, ← d.pull_nil, h, List.nil_append]
  induction chunks with
  | nil =>
    intro buf
    rw [List.foldl_nil, List.flatten_nil, List.append_nil]
  | cons chunk chunks ih =>
    intro buf
    rw [List.foldl_cons, feed, ← d.pull_append, ih, List.flatten_cons, List.append_assoc]

end Resumable

end Kernway
