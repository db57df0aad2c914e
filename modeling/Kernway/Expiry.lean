import Mathlib.Data.Option.Basic

namespace Kernway

variable {κ α : Type}

/-- Values that die with time and stay dead. -/
def Dies (live : Nat → α → Bool) : Prop :=
  ∀ now later v, now ≤ later → live later v = true → live now v = true

/-- A map holds what has been stored, less some of what is no longer live. -/
def Lags (live : Nat → α → Bool) (now : Nat) (held stored : κ → Option α) : Prop :=
  ∀ k, held k = stored k ∨ held k = none ∧ ∀ v, stored k = some v → live now v = false

/-- Calls at non-decreasing times, none of them after `now`. A call may be made at any time. -/
def Timed {γ : Type} (time : γ → Option Nat) (calls : List γ) (now : Nat) : Prop :=
  (calls.filterMap time ++ [now]).Pairwise (· ≤ ·)

namespace Lags

variable {live : Nat → α → Bool} {now later : Nat} {held held' stored stored' : κ → Option α}

theorem refl (live : Nat → α → Bool) (now : Nat) (held : κ → Option α) :
    Lags live now held held :=
  fun _ => .inl rfl

/-- What has been dropped is still dead later. -/
theorem mono (h : Lags live now held stored) (hlive : Dies live) (hle : now ≤ later) :
    Lags live later held stored := by
  intro k
  refine (h k).imp_right fun ⟨hnone, hdead⟩ => ⟨hnone, fun v hv => ?_⟩
  by_contra hlater
  have hnow := hlive now later v hle (((Bool.not_eq_false _).mp hlater))
  rw [hdead v hv] at hnow
  cases hnow

/-- A write or a removal at one key is made on both sides. -/
theorem set [DecidableEq κ] (h : Lags live now held stored) {k : κ} {o : Option α}
    (hheld : ∀ k', held' k' = if k' = k then o else held k')
    (hstored : ∀ k', stored' k' = if k' = k then o else stored k') :
    Lags live now held' stored' := by
  intro k'
  rw [hheld, hstored]
  split
  next => exact .inl rfl
  next => exact h k'

/-- What is dead may be dropped. -/
theorem drop (h : Lags live now held stored)
    (hheld : ∀ k, held' k = (held k).filter (live now)) : Lags live now held' stored := by
  intro k
  rw [hheld]
  rcases h k with heq | ⟨hnone, hdead⟩
  · rw [heq]
    cases hk : stored k with
    | none => exact .inl rfl
    | some v =>
      cases hv : live now v with
      | true => exact .inl (Option.filter_eq_some_iff.mpr ⟨rfl, hv⟩)
      | false =>
        refine .inr ⟨?_, fun w hw => ?_⟩
        · rw [Option.filter_some, hv, if_neg Bool.false_ne_true]
        · cases hw
          exact hv
  · rw [hnone]
    exact .inr ⟨rfl, hdead⟩

/-- What is live is the same on both sides. -/
theorem filter_eq (h : Lags live now held stored) (k : κ) :
    (held k).filter (live now) = (stored k).filter (live now) := by
  rcases h k with heq | ⟨hnone, hdead⟩
  · rw [heq]
  · rw [hnone]
    cases hk : stored k with
    | none => rfl
    | some v => rw [Option.filter_some, hdead v hk, if_neg Bool.false_ne_true, Option.filter_none]

/-- What every call keeps at its own time, a run keeps. -/
theorem foldl {γ σ : Type} {time : γ → Option Nat} {held : σ → κ → Option α} {after : σ → γ → σ}
    {store : (κ → Option α) → γ → κ → Option α} (inv : σ → Prop)
    (hlive : Dies live)
    (hinv : ∀ s call, inv s → inv (after s call))
    (hstep : ∀ s stored now call, inv s → (∀ t, time call = some t → t = now) →
      Lags live now (held s) stored → Lags live now (held (after s call)) (store stored call))
    {s : σ} (hs : inv s) {stored : κ → Option α} {calls : List γ} {start : Nat}
    (h : Lags live start (held s) stored)
    (htimed : (start :: (calls.filterMap time ++ [now])).Pairwise (· ≤ ·)) :
    Lags live now (held (calls.foldl after s)) (calls.foldl store stored) := by
  induction calls generalizing s stored start with
  | nil =>
    have hle : start ≤ now := by simpa using htimed
    exact h.mono hlive hle
  | cons call calls ih =>
    rw [List.foldl_cons, List.foldl_cons]
    cases htime : time call with
    | none =>
      rw [List.filterMap_cons_none htime] at htimed
      refine ih (hinv s call hs) (hstep s stored start call hs (fun t ht => ?_) h) htimed
      rw [htime] at ht
      cases ht
    | some t =>
      rw [List.filterMap_cons_some htime, List.cons_append] at htimed
      have hle : start ≤ t := List.rel_of_pairwise_cons htimed (List.mem_cons_self ..)
      refine ih (hinv s call hs) (hstep s stored t call hs (fun t' ht => ?_) (h.mono hlive hle))
        htimed.of_cons
      rw [htime] at ht
      cases ht
      rfl

theorem run {γ σ : Type} {time : γ → Option Nat} {held : σ → κ → Option α} {after : σ → γ → σ}
    {store : (κ → Option α) → γ → κ → Option α} (inv : σ → Prop)
    (hlive : Dies live)
    (hinv : ∀ s call, inv s → inv (after s call))
    (hstep : ∀ s stored now call, inv s → (∀ t, time call = some t → t = now) →
      Lags live now (held s) stored → Lags live now (held (after s call)) (store stored call))
    {s : σ} (hs : inv s) {calls : List γ} (htimed : Timed time calls now) :
    Lags live now (held (calls.foldl after s)) (calls.foldl store (held s)) :=
  foldl inv hlive hinv hstep hs (refl live 0 (held s))
    (List.pairwise_cons.mpr ⟨fun t _ => Nat.zero_le t, htimed⟩)

end Lags

end Kernway
