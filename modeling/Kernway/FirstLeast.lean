import Mathlib.Data.List.Lex

namespace Kernway

/-- Of the elements of `xs` that are `ok`, `x` has the least key, and is the first that has it. -/
def FirstLeast {α β : Type} [LT β] [LE β] (ok : α → Prop) (key : α → β) (xs : List α) (x : α) :
    Prop :=
  ∃ pre post, xs = pre ++ x :: post ∧ ok x ∧ (∀ y ∈ pre, ok y → key x < key y) ∧
    ∀ y ∈ post, ok y → key x ≤ key y

namespace FirstLeast

variable {α β γ δ : Type} [LT β] [LE β] [LT δ] [LE δ] {ok : α → Prop} {key : α → β}

theorem mem {xs : List α} {x : α} (h : FirstLeast ok key xs x) : x ∈ xs ∧ ok x := by
  obtain ⟨pre, post, rfl, hx, _⟩ := h
  exact ⟨by simp, hx⟩

/-- A choice among the images under a partial map is a choice among all, where the map keeps what
is ok and the order of keys, and what it leaves out comes later. -/
theorem of_filterMap {f : α → Option γ} {ok' : γ → Prop} {key' : γ → δ} {xs : List α}
    (hok : ∀ x ∈ xs, ∀ x', f x = some x' → (ok x ↔ ok' x'))
    (hlt : ∀ x x' y y', f x = some x' → f y = some y' → key' x' < key' y' → key x < key y)
    (hle : ∀ x x' y y', f x = some x' → f y = some y' → key' x' ≤ key' y' → key x ≤ key y)
    (hout : ∀ x x', f x = some x' → ∀ y ∈ xs, f y = none → ok y → key x < key y ∧ key x ≤ key y)
    {x' : γ} (h : FirstLeast ok' key' (xs.filterMap f) x') :
    ∃ x, f x = some x' ∧ FirstLeast ok key xs x := by
  obtain ⟨pre', post', hxs, hx', hpre, hpost⟩ := h
  obtain ⟨pre, rest, rfl, rfl, hrest⟩ := List.filterMap_eq_append_iff.mp hxs
  obtain ⟨skip, x, post, rfl, hskip, hx, rfl⟩ := List.filterMap_eq_cons_iff.mp hrest
  have hmem : ∀ y, y ∈ pre ++ skip ∨ y = x ∨ y ∈ post → y ∈ pre ++ (skip ++ x :: post) := by
    simp only [List.mem_append, List.mem_cons]
    tauto
  refine ⟨x, hx, pre ++ skip, post, by simp, (hok x (hmem x (by simp)) x' hx).mpr hx',
    fun y hy hoky => ?_, fun y hy hoky => ?_⟩
  · have hy' := hmem y (.inl hy)
    cases hfy : f y with
    | none => exact (hout x x' hx y hy' hfy hoky).1
    | some y' =>
      rcases List.mem_append.mp hy with hypre | hyskip
      · exact hlt x x' y y' hx hfy
          (hpre y' (List.mem_filterMap.mpr ⟨y, hypre, hfy⟩) ((hok y hy' y' hfy).mp hoky))
      · simp [hskip y hyskip] at hfy
  · have hy' := hmem y (.inr (.inr hy))
    cases hfy : f y with
    | none => exact (hout x x' hx y hy' hfy hoky).2
    | some y' =>
      exact hle x x' y y' hx hfy
        (hpost y' (List.mem_filterMap.mpr ⟨y, hy, hfy⟩) ((hok y hy' y' hfy).mp hoky))

end FirstLeast

end Kernway
