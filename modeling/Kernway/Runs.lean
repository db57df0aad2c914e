import Mathlib.Data.List.Basic

namespace Kernway

/-- A transition system: the states runs start in, and the steps by their events. -/
structure System (σ ε : Type) where
  start : σ → Prop
  step : σ → ε → σ → Prop

namespace System

variable {σ ε : Type} (sys : System σ ε)

/-- The states of the runs whose steps all meet a condition on the state and the event. -/
inductive Reach (ok : σ → ε → Prop) : σ → Prop
  | start {s : σ} : sys.start s → Reach ok s
  | step {s s' : σ} {e : ε} : Reach ok s → ok s e → sys.step s e s' → Reach ok s'

def Reachable : σ → Prop := sys.Reach fun _ _ => True

variable {sys}

theorem Reach.mono {ok ok' : σ → ε → Prop} (hok : ∀ s e, ok s e → ok' s e) {s : σ}
    (h : sys.Reach ok s) : sys.Reach ok' s := by
  induction h with
  | start hs => exact .start hs
  | step _ h hs ih => exact ih.step (hok _ _ h) hs

/-- What holds at the start and is kept by every step that meets the condition holds of all such
runs. -/
theorem Reach.invariant {ok : σ → ε → Prop} {inv : σ → Prop} (hstart : ∀ s, sys.start s → inv s)
    (hstep : ∀ s e s', inv s → ok s e → sys.step s e s' → inv s') {s : σ} (h : sys.Reach ok s) :
    inv s := by
  induction h with
  | start hs => exact hstart _ hs
  | step _ hok hs ih => exact hstep _ _ _ ih hok hs

/-- A run, by the steps that it has taken, each with the state that it was taken in. -/
inductive Trace (sys : System σ ε) : List (σ × ε) → σ → Prop
  | start {s : σ} : sys.start s → Trace sys [] s
  | step {steps : List (σ × ε)} {s s' : σ} {e : ε} :
    Trace sys steps s → sys.step s e s' → Trace sys (steps ++ [(s, e)]) s'

/-- A run to a reachable state, its steps meeting the condition. -/
theorem Reach.trace {ok : σ → ε → Prop} {s : σ} (h : sys.Reach ok s) : ∃ steps, sys.Trace steps s ∧ ∀ x ∈ steps, ok x.1 x.2 := by
  induction h with
  | start hs => exact ⟨[], .start hs, fun x hx => absurd hx List.not_mem_nil⟩
  | @step s s' e _ hok hs ih =>
    obtain ⟨steps, hrun, hsteps⟩ := ih
    refine ⟨steps ++ [(s, e)], hrun.step hs, fun x hx => ?_⟩
    rcases List.mem_append.mp hx with hx | hx
    · exact hsteps x hx
    · rw [List.mem_singleton.mp hx]
      exact hok

end System

end Kernway
