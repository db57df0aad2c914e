import Mathlib.Data.List.Basic
import Mathlib.Tactic.Common

namespace Kernway

/-- What is read off the front of a list, and what is left. -/
abbrev StreamReader (τ α : Type) := StateT (List τ) Option α

namespace StreamReader

variable {τ α β : Type} {r : StreamReader τ α} {f : α → StreamReader τ β}

/-- The value is read off the front of what it was written to, whatever follows. -/
def Reads (r : StreamReader τ α) (written : List τ) (v : α) : Prop :=
  ∀ rest, r (written ++ rest) = some (v, rest)

/-- What follows does not change what is read. -/
def Local (r : StreamReader τ α) : Prop :=
  ∀ ⦃s v rest⦄, r s = some (v, rest) → rest <:+ s ∧ ∀ more, r (s ++ more) = some (v, rest ++ more)

/-- A reader of positions reads what stands behind each position. -/
def Tracks (s : List τ) (r : StreamReader τ α) (cursor : Nat → Option (α × Nat)) : Prop :=
  ∀ pos ≤ s.length, cursor pos = (r (s.drop pos)).map fun p => (p.1, s.length - p.2.length)

theorem bind_eq (r : StreamReader τ α) (f : α → StreamReader τ β) (s : List τ) :
    (r >>= f) s = (r s).bind fun p => f p.1 p.2 := rfl

theorem Reads.pure (v : α) : Reads (pure v : StreamReader τ α) [] v := fun _ => rfl

theorem Reads.bind {written written' : List τ} {v : α} {w : β} (h : Reads r written v)
    (h' : Reads (f v) written' w) : Reads (r >>= f) (written ++ written') w := by
  intro rest
  rw [bind_eq, List.append_assoc, h]
  exact h' rest

theorem Reads.last {written : List τ} {v : α} (h : Reads r written v) (g : α → β) :
    Reads (r >>= fun v => Pure.pure (g v)) written (g v) := by
  have hbind := Reads.bind (f := fun v => Pure.pure (g v)) h (Reads.pure (g v))
  rwa [List.append_nil] at hbind

theorem Reads.decoded {written : List τ} {v : α} (h : Reads r written v) :
    (r written).map Prod.fst = some v := by
  have hwhole := h []
  rw [List.append_nil] at hwhole
  rw [hwhole]
  rfl

theorem Local.pure (v : α) : Local (Pure.pure v : StreamReader τ α) := by
  intro s w rest h
  cases h
  exact ⟨List.suffix_rfl, fun _ => rfl⟩

theorem Local.bind (h : Local r) (h' : ∀ v, Local (f v)) : Local (r >>= f) := by
  intro s w rest heq
  rw [bind_eq] at heq
  obtain ⟨⟨v, behind⟩, hread, hrest⟩ := Option.bind_eq_some_iff.mp heq
  obtain ⟨hsuffix, happend⟩ := h hread
  obtain ⟨hsuffix', happend'⟩ := h' v hrest
  refine ⟨hsuffix'.trans hsuffix, fun more => ?_⟩
  rw [bind_eq, happend]
  exact happend' more

/-- A strict prefix of what was written is not read. -/
theorem Reads.prefix_none {written front : List τ} {v : α} (h : Reads r written v) (hlocal : Local r)
    (hfront : front <+: written) (hne : front ≠ written) : r front = none := by
  obtain ⟨more, rfl⟩ := hfront
  cases hread : r front with
  | none => rfl
  | some p =>
    obtain ⟨w, rest⟩ := p
    have hwhole := h []
    rw [List.append_nil, (hlocal hread).2 more] at hwhole
    have hrest : rest ++ more = [] := (Prod.mk.inj (Option.some.inj hwhole)).2
    have hmore := (List.append_eq_nil_iff.mp hrest).2
    rw [hmore, List.append_nil] at hne
    exact absurd rfl hne

theorem Tracks.pure (s : List τ) (v : α) : Tracks s (Pure.pure v) fun pos => some (v, pos) := by
  intro pos hpos
  show some (v, pos) = some (v, s.length - (s.drop pos).length)
  rw [List.length_drop]
  congr 2
  omega

theorem Tracks.bind {s : List τ} {cursor : Nat → Option (α × Nat)} {next : α → Nat → Option (β × Nat)}
    (h : Tracks s r cursor) (hlocal : Local r) (h' : ∀ v, Tracks s (f v) (next v)) :
    Tracks s (r >>= f) fun pos => (cursor pos).bind fun p => next p.1 p.2 := by
  intro pos hpos
  dsimp only
  rw [h pos hpos, bind_eq]
  cases hread : r (s.drop pos) with
  | none => rfl
  | some p =>
    obtain ⟨v, rest⟩ := p
    have hsuffix : rest <:+ s := (hlocal hread).1.trans (List.drop_suffix pos s)
    have hdrop : s.drop (s.length - rest.length) = rest := (List.suffix_iff_eq_drop.mp hsuffix).symm
    show next v (s.length - rest.length) = (f v rest).map _
    rw [h' v _ (Nat.sub_le _ _), hdrop]

theorem Tracks.start {s : List τ} {cursor : Nat → Option (α × Nat)} (h : Tracks s r cursor) :
    (cursor 0).map Prod.fst = (r s).map Prod.fst := by
  rw [h 0 (Nat.zero_le _), List.drop_zero, Option.map_map]
  rfl

/-- The next `n` elements. -/
def take (n : Nat) : StreamReader τ (List τ) := fun s =>
  if s.length < n then none else some (s.take n, s.drop n)

def item : StreamReader τ τ := fun s =>
  match s with
  | [] => none
  | x :: s => some (x, s)

/-- A value that is there or not, with nothing read. -/
def given (o : Option α) : StreamReader τ α := fun s => o.map fun v => (v, s)

theorem local_take (n : Nat) : Local (take n : StreamReader τ (List τ)) := by
  intro s v rest h
  unfold take at h
  split at h
  next => cases h
  next hle =>
    cases h
    refine ⟨List.drop_suffix n s, fun more => ?_⟩
    unfold take
    rw [if_neg (by rw [List.length_append]; omega), List.take_append_of_le_length (by omega),
      List.drop_append_of_le_length (by omega)]

theorem local_item : Local (item : StreamReader τ τ) := by
  intro s v rest h
  cases s with
  | nil => cases h
  | cons x s =>
    cases h
    exact ⟨List.suffix_cons _ _, fun _ => rfl⟩

theorem local_given (o : Option α) : Local (given o : StreamReader τ α) := by
  intro s v rest h
  obtain ⟨w, rfl, h⟩ := Option.map_eq_some_iff.mp h
  cases h
  exact ⟨List.suffix_rfl, fun _ => rfl⟩

theorem tracks_take (s : List τ) (n : Nat) : Tracks s (take n) fun pos =>
    if pos + n ≤ s.length then some ((s.drop pos).take n, pos + n) else none := by
  intro pos hpos
  unfold take
  dsimp only
  rw [List.length_drop]
  by_cases hle : pos + n ≤ s.length
  · rw [if_pos hle, if_neg (by omega), List.drop_drop]
    show some (_, _) = some (_, _ - _)
    rw [List.length_drop]
    congr 2
    omega
  · rw [if_neg hle, if_pos (by omega)]
    rfl

theorem tracks_item (s : List τ) : Tracks s item fun pos => s[pos]?.map fun x => (x, pos + 1) := by
  intro pos hpos
  dsimp only
  by_cases hlt : pos < s.length
  · rw [List.getElem?_eq_getElem hlt, List.drop_eq_getElem_cons hlt]
    show some (_, _) = some (_, _ - _)
    rw [List.length_drop]
    congr 2
    omega
  · rw [List.getElem?_eq_none (by omega), List.drop_of_length_le (by omega)]
    rfl

theorem tracks_given (s : List τ) (o : Option α) : Tracks s (given o) fun pos =>
    o.map fun v => (v, pos) := by
  cases o with
  | none => exact fun _ _ => rfl
  | some v => exact Tracks.pure s v

end StreamReader

end Kernway
