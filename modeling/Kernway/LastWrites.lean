import Mathlib.Data.List.Induction
import Mathlib.Data.List.Nodup

namespace Kernway.LastWrites

variable {α κ : Type} [DecidableEq κ] (key : α → κ) (keep : α → Bool)

/-- A write takes out what stands under its key, and puts itself at the end where it is kept. -/
def put (xs : List α) (x : α) : List α :=
  xs.filter (fun y => key y ≠ key x) ++ if keep x then [x] else []

/-- The last write under a key. -/
def last (writes : List α) (k : κ) : Option α := (writes.filter fun x => key x = k).getLast?

def run (writes : List α) : List α := writes.foldl (put key keep) []

variable {key keep}

theorem mem_put {xs : List α} {x y : α} :
    y ∈ put key keep xs x ↔ y ∈ xs ∧ key y ≠ key x ∨ keep x = true ∧ y = x := by
  unfold put
  rw [List.mem_append, List.mem_filter, decide_eq_true_iff]
  by_cases hkeep : keep x = true
  · rw [if_pos hkeep, List.mem_singleton]
    simp only [hkeep, true_and]
  · rw [if_neg hkeep]
    simp only [hkeep, List.not_mem_nil, false_and, Bool.false_eq_true]

theorem put_of_drop {xs : List α} {x : α} (h : keep x = false) :
    put key keep xs x = xs.filter fun y => key y ≠ key x := by
  unfold put
  rw [h, if_neg Bool.false_ne_true, List.append_nil]

theorem nodup_put {xs : List α} (h : (xs.map key).Nodup) (x : α) :
    ((put key keep xs x).map key).Nodup := by
  have hkept : ((xs.filter fun y => key y ≠ key x).map key).Nodup :=
    (List.filter_sublist.map key).nodup h
  unfold put
  split
  next =>
    rw [List.map_append, List.nodup_append]
    refine ⟨hkept, List.nodup_singleton _, ?_⟩
    intro k hk k' hk' heq
    obtain ⟨y, hy, rfl⟩ := List.mem_map.mp hk
    obtain ⟨z, hz, rfl⟩ := List.mem_map.mp hk'
    have hne : key y ≠ key x := by simpa using (List.mem_filter.mp hy).2
    rw [List.mem_singleton.mp hz] at heq
    exact hne heq
  next => rwa [List.append_nil]

theorem last_append (writes : List α) (x : α) (k : κ) :
    last key (writes ++ [x]) k = if key x = k then some x else last key writes k := by
  unfold last
  rw [List.filter_append]
  by_cases hk : key x = k
  · rw [if_pos hk, List.filter_cons_of_pos (by simpa using hk), List.filter_nil, List.getLast?_concat]
  · rw [if_neg hk, List.filter_cons_of_neg (by simpa using hk), List.filter_nil, List.append_nil]

theorem key_of_last {writes : List α} {x : α} {k : κ} (h : last key writes k = some x) :
    x ∈ writes ∧ key x = k := by
  have hmem := List.mem_filter.mp (List.mem_of_getLast? h)
  exact ⟨hmem.1, of_decide_eq_true hmem.2⟩

theorem nodup_run (writes : List α) : ((run key keep writes).map key).Nodup := by
  unfold run
  induction writes using List.reverseRecOn with
  | nil => exact List.nodup_nil
  | append_singleton writes x ih =>
    rw [List.foldl_append]
    exact nodup_put ih x

/-- A key's element is its last write, where that is kept. -/
theorem mem_run {writes : List α} {x : α} :
    x ∈ run key keep writes ↔ last key writes (key x) = some x ∧ keep x = true := by
  induction writes using List.reverseRecOn with
  | nil =>
    constructor
    · intro h
      cases h
    · rintro ⟨h, -⟩
      cases h
  | append_singleton writes w ih =>
    have hrun : run key keep (writes ++ [w]) = put key keep (run key keep writes) w := by
      unfold run
      rw [List.foldl_append]
      rfl
    rw [hrun, mem_put, ih, last_append]
    by_cases hk : key w = key x
    · rw [if_pos hk]
      constructor
      · rintro (⟨-, hne⟩ | ⟨hkeep, rfl⟩)
        · exact absurd hk.symm hne
        · exact ⟨rfl, hkeep⟩
      · rintro ⟨heq, hkeep⟩
        obtain rfl := Option.some.inj heq
        exact .inr ⟨hkeep, rfl⟩
    · rw [if_neg hk]
      constructor
      · rintro (⟨hold, -⟩ | ⟨-, rfl⟩)
        · exact hold
        · exact absurd rfl hk
      · exact fun hold => .inl ⟨hold, fun heq => hk heq.symm⟩

end Kernway.LastWrites
