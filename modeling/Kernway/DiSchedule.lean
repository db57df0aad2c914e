import Kernway.DiRefresh
import Mathlib.Data.List.Perm.Basic
import Mathlib.Data.List.Count

namespace Kernway

variable {Ty : Type} [DecidableEq Ty]

/-- The states of the sweeps over a batch: `built` is what has been built so far, in that order. -/
inductive Early (ctx : AppContext Ty) (batch : List (Component Ty)) :
    List (Component Ty) → Wiring Ty → Prop
  | start : Early ctx batch [] (.start ctx batch)
  | step {built rest : List (Component Ty)} {w w' : Wiring Ty} {c : Component Ty} :
    Early ctx batch built w → batch.Perm (built ++ c :: rest) → w.ready c = true →
    w.call c = .ok w' → Early ctx batch (built ++ [c]) (w'.provide c)

/-- A constructor call of the sweeps that fails. -/
def EarlyFailure (ctx : AppContext Ty) (batch : List (Component Ty)) (f : Failure Ty) : Prop :=
  ∃ built rest w c, Early ctx batch built w ∧ batch.Perm (built ++ c :: rest) ∧
    w.ready c = true ∧ w.call c = .error f

theorem Wiring.call_eq_ok_iff {w w' : Wiring Ty} {c : Component Ty} :
    w.call c = .ok w' ↔ ∃ ctx, c.build w.ctx = .ok ctx ∧
      w' = { w with ctx, calls := w.calls ++ [⟨c, c.hardView w.ctx⟩] } := by
  unfold Wiring.call
  cases c.build w.ctx <;> simp [eq_comm]

theorem Wiring.call_eq_error_iff {w : Wiring Ty} {c : Component Ty} {f : Failure Ty} :
    w.call c = .error f ↔ ∃ e, c.build w.ctx = .error e ∧
      f = ⟨.build e, w.calls ++ [⟨c, c.hardView w.ctx⟩]⟩ := by
  unfold Wiring.call
  cases c.build w.ctx <;> simp [eq_comm]

/-- A type is available when the context had it or a built component provides it. -/
theorem Early.available {ctx : AppContext Ty} {batch built : List (Component Ty)} {w : Wiring Ty}
    (h : Early ctx batch built w) (t : Ty) :
    w.available t = true ↔ ctx.has t = true ∨ ∃ b ∈ built, t ∈ b.provides := by
  induction h with
  | start => simp [Wiring.start]
  | step _ _ _ hcall ih =>
    obtain ⟨ctx', _, rfl⟩ := Wiring.call_eq_ok_iff.1 hcall
    simp only [Wiring.provide, Bool.or_eq_true, decide_eq_true_eq, ih, List.mem_append,
      List.mem_singleton]
    grind

theorem providers_append (defs defs' : List (Component Ty)) (t : Ty) :
    providers (defs ++ defs') t = providers defs t + providers defs' t := by
  simp [providers]

theorem providers_cons (c : Component Ty) (defs : List (Component Ty)) (t : Ty) :
    providers (c :: defs) t = c.provides.count t + providers defs t := by
  simp [providers]

theorem providers_perm {defs defs' : List (Component Ty)} (h : defs.Perm defs') (t : Ty) :
    providers defs t = providers defs' t :=
  (h.flatMap_right _).count_eq t

theorem providers_eq_zero_iff {defs : List (Component Ty)} {t : Ty} :
    providers defs t = 0 ↔ ∀ c ∈ defs, t ∉ c.provides := by
  simp [providers, List.count_eq_zero]

/-- What is counted as pending is what the components not yet built provide. -/
theorem Early.pending {ctx : AppContext Ty} {batch built : List (Component Ty)} {w : Wiring Ty}
    (h : Early ctx batch built w) (t : Ty) :
    w.pendingProviders t + providers built t = providers batch t := by
  induction h with
  | start => simp [Wiring.start, providers]
  | @step built rest w w' c _ hperm _ hcall ih =>
    obtain ⟨ctx', _, rfl⟩ := Wiring.call_eq_ok_iff.1 hcall
    have hp := providers_perm hperm t
    simp only [Wiring.provide, providers_append, providers_cons] at hp ⊢
    simp only [providers, List.flatMap_nil, List.count_nil] at *
    omega

theorem Early.pending_rest {ctx : AppContext Ty} {batch built rest : List (Component Ty)}
    {w : Wiring Ty} (h : Early ctx batch built w) (hp : batch.Perm (built ++ rest)) (t : Ty) :
    w.pendingProviders t = providers rest t := by
  have hpending := h.pending t
  rw [providers_perm hp t, providers_append] at hpending
  omega

/-- A component is ready when each hard dependency is there, and no component still to be built
provides a soft one. -/
theorem Early.ready_iff {ctx : AppContext Ty} {batch built rest : List (Component Ty)}
    {w : Wiring Ty} (h : Early ctx batch built w) (hp : batch.Perm (built ++ rest))
    (c : Component Ty) :
    w.ready c = true ↔
      (∀ d ∈ c.dependencies, ctx.has d = true ∨ ∃ b ∈ built, d ∈ b.provides) ∧
      ∀ d ∈ c.optionalDependencies, ∀ r ∈ rest, d ∉ r.provides := by
  simp only [Wiring.ready, Bool.and_eq_true, List.all_eq_true, h.available, decide_eq_true_eq,
    h.pending_rest hp, providers_eq_zero_iff]

theorem sweep_not_ready {w : Wiring Ty} {cs : List (Component Ty)}
    (h : ∀ c ∈ cs, w.ready c = false) : sweep w cs = .ok (w, cs) := by
  induction cs with
  | nil => rfl
  | cons c cs ih =>
    rw [sweep, h c (by simp), ih fun x hx => h x (List.mem_cons_of_mem c hx)]
    rfl

/-- A sweep builds in turn what is ready, or stops at a constructor that fails. -/
theorem sweep_early {ctx : AppContext Ty} {batch built cs : List (Component Ty)} {w : Wiring Ty}
    (h : Early ctx batch built w) (skipped : List (Component Ty))
    (hp : batch.Perm (built ++ (skipped ++ cs))) :
    match sweep w cs with
    | .error f => EarlyFailure ctx batch f
    | .ok (w', rest) => ∃ built', Early ctx batch built' w' ∧
        batch.Perm (built' ++ (skipped ++ rest)) ∧ rest.length ≤ cs.length ∧
        (rest.length = cs.length → w' = w ∧ rest = cs ∧ ∀ c ∈ cs, w.ready c = false) := by
  induction cs generalizing built skipped w with
  | nil => exact ⟨built, h, hp, Nat.le_refl _, fun _ => ⟨rfl, rfl, by simp⟩⟩
  | cons c cs ih =>
    have hmid : batch.Perm (built ++ c :: (skipped ++ cs)) :=
      hp.trans (List.Perm.append_left _ List.perm_middle)
    unfold sweep
    cases hr : w.ready c with
    | true =>
      simp only [if_true, bind, Except.bind]
      cases hc : w.call c with
      | error f => exact ⟨built, skipped ++ cs, w, c, h, hmid, hr, hc⟩
      | ok w' =>
        have hstep := Early.step h hmid hr hc
        have := ih hstep skipped (by simpa using hmid)
        dsimp only
        split
        next f hs => simpa [hs] using this
        next w'' rest hs =>
          simp only [hs] at this
          obtain ⟨built', he, hperm, hle, _⟩ := this
          refine ⟨built', he, hperm, Nat.le_succ_of_le hle, fun heq => ?_⟩
          simp only [List.length_cons] at heq
          omega
    | false =>
      have := ih h (skipped ++ [c]) (by simpa using hp)
      simp only [Bool.false_eq_true, if_false, bind, Except.bind]
      cases hs : sweep w cs with
      | error f => simpa [hs] using this
      | ok p =>
        obtain ⟨w', rest⟩ := p
        simp only [hs] at this
        obtain ⟨built', he, hperm, hle, heq⟩ := this
        refine ⟨built', he, by simpa using hperm, by simpa using hle, fun hlen => ?_⟩
        obtain ⟨rfl, rfl, hnot⟩ := heq (by simpa using hlen)
        exact ⟨rfl, rfl, by simpa using ⟨hr, hnot⟩⟩

theorem sweeps_error {w : Wiring Ty} {cs : List (Component Ty)} {f : Failure Ty}
    (h : sweep w cs = .error f) : sweeps w cs = .error f := by
  rw [sweeps]
  split <;> simp_all

theorem sweeps_ok {w w' : Wiring Ty} {cs rest : List (Component Ty)}
    (h : sweep w cs = .ok (w', rest)) :
    sweeps w cs = if rest.length < cs.length then sweeps w' rest else .ok (w', rest) := by
  rw [sweeps]
  split <;> simp_all

/-- The sweeps end where no remaining component is ready, or at a constructor that fails. -/
theorem sweeps_early {ctx : AppContext Ty} {batch built cs : List (Component Ty)} {w : Wiring Ty}
    (h : Early ctx batch built w) (hp : batch.Perm (built ++ cs)) :
    match sweeps w cs with
    | .error f => EarlyFailure ctx batch f
    | .ok (w', rest) => ∃ built', Early ctx batch built' w' ∧ batch.Perm (built' ++ rest) ∧
        ∀ c ∈ rest, w'.ready c = false := by
  induction hl : cs.length using Nat.strongRecOn generalizing built cs w with
  | _ l ih =>
    have hsweep := sweep_early h [] hp
    cases hs : sweep w cs with
    | error f =>
      simp only [hs] at hsweep
      rw [sweeps_error hs]
      exact hsweep
    | ok p =>
      obtain ⟨w', rest⟩ := p
      simp only [hs, List.nil_append] at hsweep
      obtain ⟨built', he, hperm, hle, heq⟩ := hsweep
      rw [sweeps_ok hs]
      by_cases hlt : rest.length < cs.length
      · rw [if_pos hlt]
        exact ih rest.length (by omega) he hperm rfl
      · rw [if_neg hlt]
        obtain ⟨rfl, rfl, hnot⟩ := heq (by omega)
        exact ⟨built', he, hperm, hnot⟩

theorem sweeps_start (ctx : AppContext Ty) (batch : List (Component Ty)) :
    match sweeps (Wiring.start ctx batch) batch with
    | .error f => EarlyFailure ctx batch f
    | .ok (w, rest) => ∃ built, Early ctx batch built w ∧ batch.Perm (built ++ rest) ∧
        ∀ c ∈ rest, w.ready c = false :=
  sweeps_early .start (List.Perm.refl batch)

end Kernway
