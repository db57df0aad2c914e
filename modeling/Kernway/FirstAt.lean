import Mathlib.Data.List.Infix

namespace Kernway

variable {α : Type} [DecidableEq α] {word front rest xs : List α} {d x : α} {i : Nat}

theorem drop_of_drop {α : Type} {xs front rest : List α} {pos : Nat}
    (h : xs.drop pos = front ++ rest) : xs.drop (pos + front.length) = rest := by
  rw [← List.drop_drop, h, List.drop_left]

/-- The first place where a word stands in a list. -/
def firstAt (word : List α) : List α → Option Nat
  | [] => if word = [] then some 0 else none
  | x :: xs => if word.isPrefixOf (x :: xs) then some 0 else (firstAt word xs).map (· + 1)

theorem firstAt_bounds (h : firstAt word xs = some i) : i + word.length ≤ xs.length := by
  induction xs generalizing i with
  | nil =>
    unfold firstAt at h
    split at h
    next hempty =>
      cases h
      rw [hempty]
      exact Nat.le_refl 0
    next => cases h
  | cons x xs ih =>
    unfold firstAt at h
    split at h
    next hhere =>
      cases h
      rw [Nat.zero_add]
      exact (List.isPrefixOf_iff_prefix.mp hhere).length_le
    next =>
      obtain ⟨j, hj, rfl⟩ := Option.map_eq_some_iff.mp h
      have hle := ih hj
      rw [List.length_cons]
      omega

theorem firstAt_here (h : word <+: xs) : firstAt word xs = some 0 := by
  cases xs with
  | nil => rw [firstAt, if_pos (List.prefix_nil.mp h)]
  | cons x xs => rw [firstAt, if_pos (List.isPrefixOf_iff_prefix.mpr h)]

theorem firstAt_cons (h : ¬ word <+: x :: xs) :
    firstAt word (x :: xs) = (firstAt word xs).map (· + 1) := by
  rw [firstAt, if_neg (fun hp => h (List.isPrefixOf_iff_prefix.mp hp))]

/-- Past elements that the word does not begin with. -/
theorem firstAt_append (h : d ∉ front) :
    firstAt (d :: word) (front ++ rest) = (firstAt (d :: word) rest).map (front.length + ·) := by
  induction front with
  | nil => simp
  | cons x front ih =>
    rw [List.mem_cons, not_or] at h
    have hx : ¬ d :: word <+: x :: (front ++ rest) := by
      intro hp
      exact h.1 (List.cons_prefix_cons.mp hp).1
    rw [List.cons_append, firstAt_cons hx, ih h.2, Option.map_map, List.length_cons]
    congr 1
    funext n
    exact (Nat.add_right_comm _ _ _).symm

/-- A word that its first element occurs in only once is found behind a list without it. -/
theorem firstAt_of_absent (hd : d ∉ word) (h : ¬ d :: word <:+: front) :
    firstAt (d :: word) (front ++ d :: word ++ rest) = some front.length := by
  induction front with
  | nil => exact firstAt_here (List.prefix_append _ _)
  | cons x front ih =>
    have hx : ¬ d :: word <+: (x :: front) ++ (d :: word ++ rest) := by
      intro hp
      rcases List.prefix_or_prefix_of_prefix hp (List.prefix_append _ _) with hle | ⟨more, hmore⟩
      · exact h hle.isInfix
      -- the word begins in front of its other place and ends behind that, so `d` comes again in it
      · have hmore' : more <+: d :: word ++ rest := by
          apply (List.prefix_append_right_inj (x :: front)).mp
          rwa [hmore]
        cases more with
        | nil =>
          rw [List.append_nil] at hmore
          exact h (by rw [hmore])
        | cons c more =>
          have hc : c = d := (List.cons_prefix_cons.mp hmore').1
          have hword : word = front ++ c :: more := ((List.cons.inj hmore).2).symm
          apply hd
          rw [hword, hc]
          simp
    have hfront : ¬ d :: word <:+: front := fun hi => h (hi.trans (List.suffix_cons x front).isInfix)
    rw [List.cons_append, ← List.append_assoc] at hx
    rw [List.cons_append, List.cons_append, firstAt_cons hx, ih hfront]
    rfl

end Kernway
