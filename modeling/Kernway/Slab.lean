import Mathlib.Data.List.Nodup
import Mathlib.Data.List.Perm.Subperm

namespace Kernway

/-- Slots with a free list; the id that was freed last stands first. -/
structure Slab (τ : Type) where
  slots : List (Option τ)
  free : List Nat

namespace Slab

variable {τ : Type}

def empty : Slab τ := ⟨[], []⟩

/-- The slab with the task, and its id. -/
def insert (slab : Slab τ) (task : τ) : Slab τ × Nat :=
  match slab.free with
  | id :: free => (⟨slab.slots.set id (some task), free⟩, id)
  | [] => (⟨slab.slots ++ [some task], []⟩, slab.slots.length)

def get (slab : Slab τ) (id : Nat) : Option τ := slab.slots[id]?.join

def remove (slab : Slab τ) (id : Nat) : Slab τ :=
  if (slab.get id).isSome then ⟨slab.slots.set id none, id :: slab.free⟩ else slab

def len (slab : Slab τ) : Nat := slab.slots.length - slab.free.length

/-- The free list has the vacant slots, each once. -/
structure WellFormed (slab : Slab τ) : Prop where
  nodup : slab.free.Nodup
  vacant : ∀ id, id ∈ slab.free ↔ slab.slots[id]? = some none

variable {slab : Slab τ} {id : Nat} {task : τ}

theorem get_eq_some : slab.get id = some task ↔ slab.slots[id]? = some (some task) := by
  unfold get
  rw [Option.join_eq_some_iff]

theorem wellFormed_empty : (empty : Slab τ).WellFormed where
  nodup := List.nodup_nil
  vacant id := by simp [empty]

namespace WellFormed

theorem lt_length (h : slab.WellFormed) (hid : id ∈ slab.free) : id < slab.slots.length := by
  have hslot := (h.vacant id).mp hid
  exact (List.getElem?_eq_some_iff.mp hslot).1

theorem free_le (h : slab.WellFormed) : slab.free.length ≤ slab.slots.length := by
  have hsub : slab.free ⊆ List.range slab.slots.length := by
    intro id hid
    exact List.mem_range.mpr (h.lt_length hid)
  have hle := (h.nodup.subperm hsub).length_le
  rwa [List.length_range] at hle

theorem get_free (h : slab.WellFormed) (hid : id ∈ slab.free) : slab.get id = none := by
  unfold get
  rw [(h.vacant id).mp hid]
  rfl

/-- An id that is given out is of no task. -/
theorem get_insert_id (h : slab.WellFormed) (task : τ) : slab.get (slab.insert task).2 = none := by
  unfold insert
  split
  next id free hfree =>
    apply h.get_free
    rw [hfree]
    exact List.mem_cons_self
  next =>
    unfold get
    rw [List.getElem?_eq_none (Nat.le_refl _)]
    rfl

theorem get_insert (h : slab.WellFormed) (task : τ) (id : Nat) :
    (slab.insert task).1.get id = if id = (slab.insert task).2 then some task else slab.get id := by
  unfold insert
  split
  next id' free hfree =>
    have hlt : id' < slab.slots.length := h.lt_length (by rw [hfree]; exact List.mem_cons_self)
    unfold get
    by_cases hid : id = id'
    · rw [if_pos hid, hid, List.getElem?_set_self hlt]
      rfl
    · rw [if_neg hid, List.getElem?_set_ne (Ne.symm hid)]
  next =>
    unfold get
    by_cases hid : id = slab.slots.length
    · rw [if_pos hid, hid, List.getElem?_concat_length]
      rfl
    · rw [if_neg hid]
      rcases Nat.lt_or_gt_of_ne hid with hlt | hgt
      · rw [List.getElem?_append_left hlt]
      · rw [List.getElem?_eq_none (by rw [List.length_append, List.length_singleton]; omega),
          List.getElem?_eq_none (by omega)]

theorem insert (h : slab.WellFormed) (task : τ) : (slab.insert task).1.WellFormed := by
  unfold Slab.insert
  split
  next id free hfree =>
    have hlt : id < slab.slots.length := h.lt_length (by rw [hfree]; exact List.mem_cons_self)
    have hnodup := h.nodup
    rw [hfree, List.nodup_cons] at hnodup
    refine ⟨hnodup.2, fun id' => ?_⟩
    have hvacant := h.vacant id'
    rw [hfree, List.mem_cons] at hvacant
    by_cases hid : id' = id
    · rw [hid, List.getElem?_set_self hlt]
      constructor
      · intro hin
        exact absurd hin hnodup.1
      · intro hslot
        cases hslot
    · rw [List.getElem?_set_ne (Ne.symm hid), ← hvacant]
      exact ⟨.inr, fun hin => hin.resolve_left hid⟩
  next hfree =>
    refine ⟨List.nodup_nil, fun id => ?_⟩
    have hvacant := h.vacant id
    rw [hfree] at hvacant
    constructor
    · intro hin
      cases hin
    · intro hslot
      rcases Nat.lt_trichotomy id slab.slots.length with hlt | heq | hgt
      · rw [List.getElem?_append_left hlt] at hslot
        exact hvacant.mpr hslot
      · rw [heq, List.getElem?_concat_length] at hslot
        cases hslot
      · rw [List.getElem?_eq_none (by rw [List.length_append, List.length_singleton]; omega)] at hslot
        cases hslot

theorem len_insert (h : slab.WellFormed) (task : τ) : (slab.insert task).1.len = slab.len + 1 := by
  have hle := h.free_le
  unfold Slab.insert len
  split
  next id free hfree =>
    rw [hfree, List.length_cons] at hle ⊢
    show (slab.slots.set id (some task)).length - free.length = _
    rw [List.length_set]
    omega
  next hfree =>
    rw [hfree]
    simp

end WellFormed

/-- An insertion gives out the id that was freed last, or a new one. -/
theorem insert_id (slab : Slab τ) (task : τ) :
    slab.free.head? = some (slab.insert task).2 ∨ (slab.insert task).2 = slab.slots.length := by
  unfold Slab.insert
  split
  next id free hfree =>
    left
    rw [hfree]
    rfl
  next => exact .inr rfl

theorem length_insert (slab : Slab τ) (task : τ) :
    slab.slots.length ≤ (slab.insert task).1.slots.length := by
  unfold Slab.insert
  split
  next => exact Nat.le_of_eq (List.length_set ..).symm
  next =>
    rw [List.length_append]
    exact Nat.le_add_right _ _

theorem length_remove (slab : Slab τ) (id : Nat) :
    (slab.remove id).slots.length = slab.slots.length := by
  unfold remove
  split
  next => exact List.length_set ..
  next => rfl

theorem lt_length_of_get (h : slab.get id = some task) : id < slab.slots.length :=
  (List.getElem?_eq_some_iff.mp (get_eq_some.1 h)).1

theorem get_remove (slab : Slab τ) (id id' : Nat) :
    (slab.remove id).get id' = if id' = id then none else slab.get id' := by
  unfold remove
  by_cases hid : id' = id
  · rw [if_pos hid, hid]
    split
    next hsome =>
      unfold get at hsome ⊢
      by_cases hlt : id < slab.slots.length
      · rw [List.getElem?_set_self hlt]
        rfl
      · rw [List.getElem?_eq_none (by omega)] at hsome
        cases hsome
    next hnone => exact Option.not_isSome_iff_eq_none.mp hnone
  · rw [if_neg hid]
    split
    next =>
      unfold get
      rw [List.getElem?_set_ne (Ne.symm hid)]
    next => rfl

theorem WellFormed.remove (h : slab.WellFormed) (id : Nat) : (slab.remove id).WellFormed := by
  unfold Slab.remove
  split
  next hsome =>
    obtain ⟨task, htask⟩ := Option.isSome_iff_exists.mp hsome
    have hslot := get_eq_some.1 htask
    have hlt := (List.getElem?_eq_some_iff.mp hslot).1
    have hnotin : id ∉ slab.free := by
      rw [h.vacant, hslot]
      nofun
    refine ⟨List.nodup_cons.mpr ⟨hnotin, h.nodup⟩, fun id' => ?_⟩
    rw [List.mem_cons, h.vacant]
    by_cases hid : id' = id
    · rw [hid, List.getElem?_set_self hlt]
      exact iff_of_true (.inl rfl) rfl
    · rw [List.getElem?_set_ne (Ne.symm hid)]
      exact ⟨fun hin => hin.resolve_left hid, .inr⟩
  next => exact h

theorem WellFormed.len_remove (h : slab.WellFormed) (hget : slab.get id = some task) :
    (slab.remove id).len + 1 = slab.len := by
  have hle := (h.remove id).free_le
  have hsome : (slab.get id).isSome = true := by
    rw [hget]
    rfl
  unfold Slab.remove at hle ⊢
  rw [if_pos hsome] at hle ⊢
  unfold len
  dsimp only at hle ⊢
  rw [List.length_set, List.length_cons] at hle ⊢
  omega

end Slab

end Kernway
