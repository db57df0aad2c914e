import Kernway.Utf8

namespace Kernway

/-- The position of the first `\r\n`. -/
def findCrlf : Bytes → Option Nat
  | [] => none
  | b :: rest =>
    if b = 13 ∧ rest.head? = some 10 then some 0 else (findCrlf rest).map (· + 1)

theorem findCrlf_some {buf : Bytes} {i : Nat} (h : findCrlf buf = some i) :
    ∃ rest, buf = buf.take i ++ 13 :: 10 :: rest ∧ findCrlf (buf.take i) = none := by
  induction buf generalizing i with
  | nil => cases h
  | cons b buf ih =>
    unfold findCrlf at h
    split at h
    next hhere =>
      obtain ⟨rfl, hhead⟩ := hhere
      obtain ⟨rest, rfl⟩ := List.head?_eq_some_iff.mp hhead
      cases h
      exact ⟨rest, rfl, rfl⟩
    next hhere =>
      obtain ⟨j, hj, rfl⟩ := Option.map_eq_some_iff.mp h
      obtain ⟨rest, heq, hnone⟩ := ih hj
      refine ⟨rest, ?_, ?_⟩
      · rw [List.take_succ_cons, List.cons_append, ← heq]
      · rw [List.take_succ_cons, findCrlf, hnone, if_neg]
        · rfl
        · rintro ⟨rfl, hhead⟩
          refine hhere ⟨rfl, ?_⟩
          rw [heq, List.head?_append, hhead]
          rfl

theorem findCrlf_bounds {buf : Bytes} {i : Nat} (h : findCrlf buf = some i) :
    i + 2 ≤ buf.length := by
  obtain ⟨rest, heq, -⟩ := findCrlf_some h
  have hlen := congrArg List.length heq
  simp only [List.length_append, List.length_cons, List.length_take] at hlen
  omega

theorem findCrlf_append {buf : Bytes} {i : Nat} (h : findCrlf buf = some i) (ext : Bytes) :
    findCrlf (buf ++ ext) = some i := by
  induction buf generalizing i with
  | nil => cases h
  | cons b buf ih =>
    unfold findCrlf at h
    rw [List.cons_append, findCrlf]
    split at h
    next hhere =>
      obtain ⟨rfl, hhead⟩ := hhere
      rw [if_pos ⟨rfl, by rw [List.head?_append, hhead]; rfl⟩, h]
    next hhere =>
      obtain ⟨j, hj, rfl⟩ := Option.map_eq_some_iff.mp h
      rw [if_neg, ih hj]
      · rfl
      · rintro ⟨rfl, hhead⟩
        refine hhere ⟨rfl, ?_⟩
        cases buf with
        | nil => cases hj
        | cons c buf => exact hhead

/-- The end of a line without `\r\n` is found behind it. -/
theorem findCrlf_line {line : Bytes} (h : findCrlf line = none) (rest : Bytes) :
    findCrlf (line ++ 13 :: 10 :: rest) = some line.length := by
  induction line with
  | nil => rfl
  | cons b line ih =>
    unfold findCrlf at h
    split at h
    next => cases h
    next hhere =>
      have hline : findCrlf line = none := Option.map_eq_none_iff.mp h
      rw [List.cons_append, findCrlf, if_neg, ih hline]
      · rfl
      · rintro ⟨rfl, hhead⟩
        cases line with
        | nil => cases hhead
        | cons c line => exact hhere ⟨rfl, hhead⟩

end Kernway
