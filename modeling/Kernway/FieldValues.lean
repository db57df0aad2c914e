import Kernway.Fields

namespace Kernway.Fields

variable {ci : Bool} {f g : Fields ci} {ps : List (Text × Text)} {name value : Text}

/-- Two spellings of one name. -/
def sameName (ci : Bool) (name name' : Text) : Bool := storedText ci name == storedText ci name'

/-- The values under a name, in order. -/
def values (f : Fields ci) (name : Text) : List Text :=
  (f.iter.filter fun p => sameName ci p.1 name).map Prod.snd

theorem sameName_storedText (ci : Bool) (name name' : Text) :
    sameName ci (storedText ci name) name' = sameName ci name name' := by
  rw [sameName, sameName, storedText_storedText]

/-- `insert` drops the pairs of the name and adds its own. -/
theorem insert_holds (hf : f.Holds ps) (h : f.insert name value = some g) :
    g.Holds ((ps.filter fun p => !sameName ci p.1 name) ++ [(storedText ci name, value)]) := by
  refine push_holds ?_ h
  unfold Holds at hf ⊢
  dsimp only
  generalize f.entries = es at hf
  induction hf with
  | nil => exact .nil
  | cons he _ ih =>
    rw [List.filter_cons, List.filter_cons, he.nameMatches, ← sameName]
    split
    · exact .cons he ih
    · exact ih

theorem values_of_holds (hf : f.Holds ps) (name : Text) :
    f.values name = (ps.filter fun p => sameName ci p.1 name).map Prod.snd := by
  rw [values, iter_of_holds hf]

/-- `get` reads the last value. -/
theorem get_eq_getLast (hf : f.Holds ps) (name : Text) : f.get name = (f.values name).getLast? := by
  rw [get_of_holds hf, values_of_holds hf, List.getLast?_map, List.getLast?_eq_head?_reverse,
    ← List.filter_reverse, List.head?_filter]
  rfl

theorem insert_values_same (hf : f.Holds ps) (h : f.insert name value = some g) :
    g.values name = [value] := by
  have hnone : ((ps.filter fun p => !sameName ci p.1 name).filter fun p =>
      sameName ci p.1 name) = [] := by
    rw [List.filter_filter, List.filter_eq_nil_iff]
    simp
  have hsame : sameName ci name name = true := by simp [sameName]
  rw [values_of_holds (insert_holds hf h), List.filter_append, hnone]
  simp [sameName_storedText, hsame]

/-- The values under the other names stay. -/
theorem insert_values_other (hf : f.Holds ps) (h : f.insert name value = some g) {other : Text}
    (hne : sameName ci name other = false) : g.values other = f.values other := by
  have hkept : ((ps.filter fun p => !sameName ci p.1 name).filter fun p =>
      sameName ci p.1 other) = ps.filter fun p => sameName ci p.1 other := by
    rw [List.filter_filter]
    refine List.filter_congr fun p _ => ?_
    by_cases hp : storedText ci p.1 = storedText ci name
    · simp only [sameName] at hne
      simp [sameName, hp, hne]
    · simp [sameName, hp]
  rw [values_of_holds (insert_holds hf h), values_of_holds hf, List.filter_append, hkept]
  simp [sameName_storedText, hne]

end Kernway.Fields
