import Mathlib.Data.List.AList

namespace Kernway

/-- A hash map, as its entries in some order. -/
abbrev Table (κ α : Type) := AList fun _ : κ => α

namespace Table

variable {κ α : Type} [DecidableEq κ] (t : Table κ α)

def retain (keep : κ → α → Bool) (t : Table κ α) : Table κ α :=
  ⟨t.entries.filter fun e => keep e.1 e.2, t.nodupKeys.sublist List.filter_sublist⟩

omit [DecidableEq κ] in
theorem nodupKeys_map {β : Type} (f : κ → α → β) (t : Table κ α) :
    (t.entries.map fun e => (⟨e.1, f e.1 e.2⟩ : Sigma fun _ : κ => β)).NodupKeys := by
  have hkeys : (t.entries.map fun e => (⟨e.1, f e.1 e.2⟩ : Sigma fun _ : κ => β)).keys =
      t.entries.keys := by
    simp [List.keys, Function.comp_def]
  unfold List.NodupKeys
  rw [hkeys]
  exact t.nodupKeys

def mapWithKey {β : Type} (f : κ → α → β) (t : Table κ α) : Table κ β :=
  ⟨t.entries.map fun e => ⟨e.1, f e.1 e.2⟩, nodupKeys_map f t⟩

def modify (k : κ) (f : α → α) : Table κ α :=
  match t.lookup k with
  | some v => t.insert k (f v)
  | none => t

theorem lookup_insert_eq (k k' : κ) (v : α) :
    AList.lookup k' (t.insert k v) = if k' = k then some v else t.lookup k' := by
  split
  next h => rw [h, AList.lookup_insert]
  next h => exact AList.lookup_insert_ne h

theorem lookup_erase_eq (k k' : κ) :
    AList.lookup k' (t.erase k) = if k' = k then none else t.lookup k' := by
  split
  next h => rw [h, AList.lookup_erase]
  next h => exact AList.lookup_erase_ne h

theorem lookup_modify (k k' : κ) (f : α → α) :
    AList.lookup k' (t.modify k f) = if k' = k then (t.lookup k').map f else t.lookup k' := by
  unfold modify
  split
  next v hv =>
    rw [lookup_insert_eq]
    split
    next h => rw [h, hv]; rfl
    next => rfl
  next hv =>
    split
    next h => rw [h, hv]; rfl
    next => rfl

theorem lookup_retain (keep : κ → α → Bool) (k : κ) :
    AList.lookup k (t.retain keep) = (t.lookup k).filter (keep k) := by
  apply Option.ext
  intro v
  rw [Option.filter_eq_some_iff]
  have hr : AList.lookup k (t.retain keep) = some v ↔
      Sigma.mk k v ∈ t.entries.filter fun e => keep e.1 e.2 := AList.mem_lookup_iff
  have ht : t.lookup k = some v ↔ Sigma.mk k v ∈ t.entries := AList.mem_lookup_iff
  rw [hr, ht, List.mem_filter]

theorem lookup_mapWithKey {β : Type} (f : κ → α → β) (k : κ) :
    AList.lookup k (t.mapWithKey f) = (t.lookup k).map (f k) := by
  apply Option.ext
  intro v
  have hr : AList.lookup k (t.mapWithKey f) = some v ↔
      (⟨k, v⟩ : Sigma fun _ : κ => β) ∈ t.entries.map fun e => ⟨e.1, f e.1 e.2⟩ :=
    AList.mem_lookup_iff
  have ht : ∀ x, t.lookup k = some x ↔ Sigma.mk k x ∈ t.entries := fun _ => AList.mem_lookup_iff
  simp only [hr, Option.map_eq_some_iff, ht, List.mem_map]
  constructor
  · rintro ⟨⟨k', x⟩, hx, heq⟩
    cases heq
    exact ⟨x, hx, rfl⟩
  · rintro ⟨x, hx, rfl⟩
    exact ⟨⟨k, x⟩, hx, rfl⟩

theorem length_erase_le (k : κ) : (t.erase k).entries.length ≤ t.entries.length :=
  (List.kerase_sublist k t.entries).length_le

theorem length_insert_le (k : κ) (v : α) : (t.insert k v).entries.length ≤ t.entries.length + 1 :=
  Nat.succ_le_succ (length_erase_le t k)

theorem length_insert_of_mem {k : κ} (h : k ∈ t) (v : α) :
    (t.insert k v).entries.length = t.entries.length := by
  have hkeys : ∀ t : Table κ α, t.entries.length = t.keys.length := fun t => by
    simp [AList.keys, List.keys]
  have hpos : 0 < t.keys.length := List.length_pos_of_mem h
  rw [hkeys, hkeys, AList.keys_insert, List.length_cons, List.length_erase_of_mem h]
  omega

theorem length_modify (k : κ) (f : α → α) : (t.modify k f).entries.length = t.entries.length := by
  unfold modify
  split
  next v hv => exact length_insert_of_mem t (AList.lookup_isSome.mp (by rw [hv]; rfl)) (f v)
  next => rfl

omit [DecidableEq κ] in
theorem length_retain_le (keep : κ → α → Bool) : (t.retain keep).entries.length ≤ t.entries.length :=
  List.length_filter_le _ _

end Table

end Kernway
