import Mathlib.Data.List.Basic

namespace Kernway

/-- The truth values of three-valued logic, `none` being neither. -/
abbrev Truth := Option Bool

namespace Truth

def not : Truth → Truth
  | none => none
  | some b => some !b

def and : Truth → Truth → Truth
  | some false, _ => some false
  | _, some false => some false
  | some true, some true => some true
  | _, _ => none

def or : Truth → Truth → Truth
  | some true, _ => some true
  | _, some true => some true
  | some false, some false => some false
  | _, _ => none

def any (vs : List Truth) : Truth := vs.foldr or (some false)

/-- A truth value says `p` exactly where `b` does. -/
def Agrees (p : Bool) (v : Truth) (b : Bool) : Prop := v = some p ↔ b = p

theorem and_eq_true_iff {v w : Truth} : v.and w = some true ↔ v = some true ∧ w = some true := by
  rcases v with _ | _ | _ <;> rcases w with _ | _ | _ <;> simp [and]

theorem and_eq_false_iff {v w : Truth} :
    v.and w = some false ↔ v = some false ∨ w = some false := by
  rcases v with _ | _ | _ <;> rcases w with _ | _ | _ <;> simp [and]

theorem or_eq_true_iff {v w : Truth} : v.or w = some true ↔ v = some true ∨ w = some true := by
  rcases v with _ | _ | _ <;> rcases w with _ | _ | _ <;> simp [or]

theorem or_eq_false_iff {v w : Truth} :
    v.or w = some false ↔ v = some false ∧ w = some false := by
  rcases v with _ | _ | _ <;> rcases w with _ | _ | _ <;> simp [or]

theorem not_eq_some_iff {v : Truth} {p : Bool} : v.not = some p ↔ v = some !p := by
  rcases v with _ | _ | _ <;> cases p <;> simp [not]

theorem agrees_some {p a b : Bool} : Agrees p (some a) b ↔ a = b := by
  cases p <;> cases a <;> cases b <;> simp [Agrees]

theorem agrees_none {p b : Bool} : Agrees p none b ↔ b = !p := by
  cases p <;> cases b <;> simp [Agrees]

variable {p b c : Bool} {v w : Truth}

theorem agrees_not : Agrees p v.not (!b) ↔ Agrees (!p) v b := by
  unfold Agrees
  rw [not_eq_some_iff]
  cases p <;> cases b <;> simp

theorem Agrees.and (hv : Agrees p v b) (hw : Agrees p w c) : Agrees p (v.and w) (b && c) := by
  unfold Agrees at hv hw ⊢
  cases p with
  | true => rw [and_eq_true_iff, hv, hw, Bool.and_eq_true]
  | false => rw [and_eq_false_iff, hv, hw, Bool.and_eq_false_iff]

theorem Agrees.or (hv : Agrees p v b) (hw : Agrees p w c) : Agrees p (v.or w) (b || c) := by
  unfold Agrees at hv hw ⊢
  cases p with
  | true => rw [or_eq_true_iff, hv, hw, Bool.or_eq_true]
  | false => rw [or_eq_false_iff, hv, hw, Bool.or_eq_false_iff]

theorem Agrees.any {α : Type} {f : α → Truth} {g : α → Bool} {xs : List α}
    (h : ∀ x ∈ xs, Agrees p (f x) (g x)) : Agrees p (any (xs.map f)) (xs.any g) := by
  induction xs with
  | nil => exact agrees_some.2 rfl
  | cons x xs ih =>
    rw [List.forall_mem_cons] at h
    exact h.1.or (ih h.2)

end Truth

end Kernway
