import Kernway.DiSchedule
import Mathlib.Data.Set.Finite.Basic
import Mathlib.Logic.Relation

namespace Kernway

variable {Ty : Type}

/-- The components that can be ordered: each hard dependency is in the context or provided by one
that can be ordered, and so can every provider of each soft one. -/
inductive Orderable (ctx : AppContext Ty) (batch : List (Component Ty)) : Component Ty → Prop
  | intro {c : Component Ty} (provider : Ty → Component Ty) :
    (∀ d ∈ c.dependencies, ctx.has d = false → provider d ∈ batch ∧ d ∈ (provider d).provides) →
    (∀ d ∈ c.dependencies, ctx.has d = false → Orderable ctx batch (provider d)) →
    (∀ d ∈ c.optionalDependencies, ∀ b ∈ batch, d ∈ b.provides → Orderable ctx batch b) →
    Orderable ctx batch c

/-- Every hard dependency is in the context or provided by a component. -/
def HardProvided (ctx : AppContext Ty) (batch : List (Component Ty)) : Prop :=
  ∀ c ∈ batch, ∀ d ∈ c.dependencies, ctx.has d = true ∨ ∃ b ∈ batch, d ∈ b.provides

/-- `b` provides a hard dependency of `c` that the context does not have. -/
def HardEdge (ctx : AppContext Ty) (batch : List (Component Ty)) (c b : Component Ty) : Prop :=
  b ∈ batch ∧ ∃ d ∈ c.dependencies, ctx.has d = false ∧ d ∈ b.provides

def HardAcyclic (ctx : AppContext Ty) (batch : List (Component Ty)) : Prop :=
  ∀ c ∈ batch, ¬ Relation.TransGen (HardEdge ctx batch) c c

/-- Every hard dependency is in the context or provided by a component that can be ordered. -/
def HardOrderable (ctx : AppContext Ty) (batch : List (Component Ty)) : Prop :=
  ∀ c ∈ batch, ∀ d ∈ c.dependencies,
    ctx.has d = true ∨ ∃ b ∈ batch, d ∈ b.provides ∧ Orderable ctx batch b

theorem Orderable.of_provided {ctx : AppContext Ty} {batch : List (Component Ty)} {c : Component Ty}
    (hard : ∀ d ∈ c.dependencies,
      ctx.has d = true ∨ ∃ b ∈ batch, d ∈ b.provides ∧ Orderable ctx batch b)
    (soft : ∀ d ∈ c.optionalDependencies, ∀ b ∈ batch, d ∈ b.provides → Orderable ctx batch b) :
    Orderable ctx batch c := by
  classical
  have h : ∀ d, ∃ b, d ∈ c.dependencies → ctx.has d = false →
      b ∈ batch ∧ d ∈ b.provides ∧ Orderable ctx batch b := by
    intro d
    by_cases hd : d ∈ c.dependencies ∧ ctx.has d = false
    · obtain ⟨b, hb⟩ := (hard d hd.1).resolve_left (by simp [hd.2])
      exact ⟨b, fun _ _ => hb⟩
    · exact ⟨c, fun h h' => absurd ⟨h, h'⟩ hd⟩
  choose provider hp using h
  exact .intro provider (fun d hd hh => ⟨(hp d hd hh).1, (hp d hd hh).2.1⟩)
    (fun d hd hh => (hp d hd hh).2.2) soft

theorem Orderable.mono {ctx : AppContext Ty} {batch batch' : List (Component Ty)} {c : Component Ty}
    (h : Orderable ctx batch c) (hb : ∀ x, x ∈ batch ↔ x ∈ batch') : Orderable ctx batch' c := by
  induction h with
  | intro provider hp _ _ ihard isoft =>
    exact .intro provider (fun d hd hh => ⟨(hb _).mp (hp d hd hh).1, (hp d hd hh).2⟩) ihard
      fun d hd b hb' hdb => isoft d hd b ((hb b).mpr hb') hdb

theorem HardOrderable.perm {ctx : AppContext Ty} {batch batch' : List (Component Ty)}
    (h : HardOrderable ctx batch) (hp : batch.Perm batch') : HardOrderable ctx batch' :=
  fun c hc d hd => (h c (hp.mem_iff.mpr hc) d hd).imp_right fun ⟨b, hb, hdb, ho⟩ =>
    ⟨b, hp.mem_iff.mp hb, hdb, ho.mono fun _ => hp.mem_iff⟩

theorem HardProvided.perm {ctx : AppContext Ty} {batch batch' : List (Component Ty)}
    (h : HardProvided ctx batch) (hp : batch.Perm batch') : HardProvided ctx batch' :=
  fun c hc d hd => (h c (hp.mem_iff.mpr hc) d hd).imp_right fun ⟨b, hb, hdb⟩ =>
    ⟨b, hp.mem_iff.mp hb, hdb⟩

theorem HardOrderable.provided {ctx : AppContext Ty} {batch : List (Component Ty)}
    (h : HardOrderable ctx batch) : HardProvided ctx batch :=
  fun c hc d hd => (h c hc d hd).imp_right fun ⟨b, hb, hdb, _⟩ => ⟨b, hb, hdb⟩

theorem Orderable.hard {ctx : AppContext Ty} {batch : List (Component Ty)} {c : Component Ty}
    (h : Orderable ctx batch c) {d : Ty} (hd : d ∈ c.dependencies) :
    ctx.has d = true ∨ ∃ b ∈ batch, d ∈ b.provides ∧ Orderable ctx batch b := by
  obtain ⟨provider, hp, ho, _⟩ := h
  cases hh : ctx.has d with
  | true => exact .inl rfl
  | false => exact .inr ⟨provider d, (hp d hd hh).1, (hp d hd hh).2, ho d hd hh⟩

variable [DecidableEq Ty]

theorem Early.subset {ctx : AppContext Ty} {batch built : List (Component Ty)} {w : Wiring Ty}
    (h : Early ctx batch built w) {b : Component Ty} (hb : b ∈ built) : b ∈ batch := by
  cases h with
  | start => simp at hb
  | step _ hperm _ _ =>
    refine hperm.mem_iff.mpr ?_
    simp only [List.mem_append, List.mem_cons] at hb ⊢
    tauto

theorem Early.orderable_of_ready {ctx : AppContext Ty} {batch built rest : List (Component Ty)}
    {w : Wiring Ty} {c : Component Ty} (h : Early ctx batch built w)
    (hp : batch.Perm (built ++ rest)) (hr : w.ready c = true) (hb : ∀ b ∈ built, Orderable ctx batch b) : Orderable ctx batch c := by
  obtain ⟨hard, soft⟩ := (h.ready_iff hp c).mp hr
  refine .of_provided (fun d hd => (hard d hd).imp_right ?_) fun d hd x hx hdx => ?_
  · rintro ⟨x, hx, hdx⟩
    exact ⟨x, h.subset hx, hdx, hb x hx⟩
  · rcases List.mem_append.mp (hp.mem_iff.mp hx) with hx | hx
    · exact hb x hx
    · exact absurd hdx (soft d hd x hx)

theorem Early.orderable {ctx : AppContext Ty} {batch built : List (Component Ty)} {w : Wiring Ty}
    (h : Early ctx batch built w) : ∀ b ∈ built, Orderable ctx batch b := by
  induction h with
  | start => simp
  | step he hperm hr _ ih =>
    intro b hb
    rcases List.mem_append.mp hb with hb | hb
    · exact ih b hb
    · rw [List.mem_singleton.mp hb]
      exact he.orderable_of_ready hperm hr ih

/-- Where no remaining component is ready, all that can be ordered has been built. -/
theorem Orderable.not_remaining {ctx : AppContext Ty} {batch built rest : List (Component Ty)}
    {w : Wiring Ty} {c : Component Ty} (h : Orderable ctx batch c) (he : Early ctx batch built w)
    (hp : batch.Perm (built ++ rest)) (hn : ∀ x ∈ rest, w.ready x = false) : c ∉ rest := by
  induction h with
  | @intro c provider hprov _ _ ihard isoft =>
    intro hc
    refine absurd ((he.ready_iff hp c).mpr ⟨fun d hd => ?_, fun d hd r hr hdr => ?_⟩)
      (by simp [hn c hc])
    · cases hh : ctx.has d with
      | true => exact .inl rfl
      | false =>
        obtain ⟨hb, hdb⟩ := hprov d hd hh
        have hbuilt := (List.mem_append.mp (hp.mem_iff.mp hb)).resolve_right (ihard d hd hh)
        exact .inr ⟨_, hbuilt, hdb⟩
    · have hr' : r ∈ batch := hp.mem_iff.mpr (List.mem_append_right _ hr)
      exact isoft d hd r hr' hdr hr

/-- At a stall, what is available is in the context or provided by what can be ordered. -/
theorem stalled_available {ctx : AppContext Ty} {batch built rest : List (Component Ty)}
    {w : Wiring Ty} (he : Early ctx batch built w) (hp : batch.Perm (built ++ rest))
    (hn : ∀ x ∈ rest, w.ready x = false) (t : Ty) :
    w.available t = true ↔
      ctx.has t = true ∨ ∃ b ∈ batch, t ∈ b.provides ∧ Orderable ctx batch b := by
  rw [he.available]
  refine or_congr_right ⟨?_, ?_⟩
  · rintro ⟨b, hb, ht⟩
    exact ⟨b, he.subset hb, ht, he.orderable b hb⟩
  · rintro ⟨b, hb, ht, ho⟩
    exact ⟨b, (List.mem_append.mp (hp.mem_iff.mp hb)).resolve_right (ho.not_remaining he hp hn), ht⟩

/-- The ways a refresh ends, and what each says of the hard dependencies. -/
inductive RefreshEnds (ctx : AppContext Ty) (batch : List (Component Ty)) :
    Except (Failure Ty) (Wiring Ty) → Prop
  | ok {w : Wiring Ty} : HardOrderable ctx batch → RefreshEnds ctx batch (.ok w)
  | build {e : DiError Ty} {calls : List (Call Ty)} :
    RefreshEnds ctx batch (.error ⟨.build e, calls⟩)
  | missing {t : Ty} {calls : List (Call Ty)} : ¬ HardProvided ctx batch →
    RefreshEnds ctx batch (.error ⟨.stalled (.missingDependency t), calls⟩)
  | circular {cycle : List Ty} {calls : List (Call Ty)} :
    HardProvided ctx batch → ¬ HardOrderable ctx batch →
    RefreshEnds ctx batch (.error ⟨.stalled (.circularDependency cycle), calls⟩)

theorem buildRest_error {w : Wiring Ty} {cs : List (Component Ty)} {f : Failure Ty}
    (h : buildRest w cs = .error f) : ∃ e, f.error = .build e := by
  induction cs generalizing w with
  | nil => simp [buildRest] at h
  | cons c cs ih =>
    simp only [buildRest, bind, Except.bind] at h
    cases hc : w.call c with
    | error f' =>
      simp only [hc, Except.error.injEq] at h
      obtain ⟨e, _, rfl⟩ := Wiring.call_eq_error_iff.mp hc
      exact ⟨e, by rw [← h]⟩
    | ok w' =>
      simp only [hc] at h
      exact ih h

theorem finish_ends {ctx : AppContext Ty} {batch built rest : List (Component Ty)} {w : Wiring Ty}
    (he : Early ctx batch built w) (hp : batch.Perm (built ++ rest))
    (hn : ∀ x ∈ rest, w.ready x = false) :
    RefreshEnds ctx batch (finish w (fun t => 0 < providers batch t) rest) := by
  have havail := stalled_available he hp hn
  have hprovided : ∀ t, (decide (0 < providers batch t)) = true ↔ ∃ b ∈ batch, t ∈ b.provides := by
    intro t
    rw [decide_eq_true_eq, Nat.pos_iff_ne_zero, Ne, providers_eq_zero_iff]
    simp
  have hbuilt : ∀ c ∈ built, ∀ d ∈ c.dependencies,
      ctx.has d = true ∨ ∃ b ∈ batch, d ∈ b.provides ∧ Orderable ctx batch b :=
    fun c hc d hd => (he.orderable c hc).hard hd
  unfold finish
  cases hm : missing w (fun t => 0 < providers batch t) rest with
  | some c =>
    refine .missing fun hall => ?_
    have hc := List.mem_of_find?_eq_some hm
    have hmiss := List.find?_some hm
    obtain ⟨d, hd, hnone⟩ := List.any_eq_true.mp hmiss
    simp only [Bool.and_eq_true, Bool.not_eq_true', ← Bool.not_eq_true] at hnone
    have hc' : c ∈ batch := hp.mem_iff.mpr (List.mem_append_right _ hc)
    rcases hall c hc' d hd with h | h
    · exact hnone.1 ((havail d).mpr (.inl h))
    · exact hnone.2 ((hprovided d).mpr h)
  | none =>
    have hrest := List.find?_eq_none.mp hm
    dsimp only
    split
    next hb =>
      obtain ⟨c, hc⟩ := List.exists_mem_of_ne_nil _ hb
      obtain ⟨hcr, hany⟩ := List.mem_filter.mp hc
      obtain ⟨d, hd, hna⟩ := List.any_eq_true.mp hany
      refine .circular (fun x hx d hd => ?_) fun hall => ?_
      · rcases List.mem_append.mp (hp.mem_iff.mp hx) with hx | hx
        · exact (hbuilt x hx d hd).imp_right fun h => h.imp fun _ hb => ⟨hb.1, hb.2.1⟩
        · by_contra hcon
          rw [not_or, ← hprovided] at hcon
          refine hrest x hx (List.any_eq_true.mpr ⟨d, hd, ?_⟩)
          by_cases ha : w.available d = true
          · rcases (havail d).mp ha with h | ⟨b, hb, hdb, _⟩
            · exact absurd h hcon.1
            · exact absurd ((hprovided d).mpr ⟨b, hb, hdb⟩) hcon.2
          · simp [ha, hcon.2]
      · have := (havail d).mpr (hall c (hp.mem_iff.mpr (List.mem_append_right _ hcr)) d hd)
        simp [this] at hna
    next hb =>
      have hmet : HardOrderable ctx batch := by
        intro x hx d hd
        rcases List.mem_append.mp (hp.mem_iff.mp hx) with hx | hx
        · exact hbuilt x hx d hd
        · refine (havail d).mp ?_
          by_contra ha
          exact hb (List.ne_nil_of_mem (List.mem_filter.mpr ⟨hx,
            List.any_eq_true.mpr ⟨d, hd, by simpa using ha⟩⟩))
      cases hr : buildRest w rest with
      | ok w' => exact .ok hmet
      | error f =>
        obtain ⟨error, calls⟩ := f
        obtain ⟨e, rfl⟩ := buildRest_error hr
        exact .build

theorem refresh_ends (ctx : AppContext Ty) (batch : List (Component Ty)) :
    RefreshEnds ctx batch (ctx.refresh batch) := by
  have h := sweeps_start ctx batch
  unfold AppContext.refresh
  simp only [bind, Except.bind]
  cases hs : sweeps (Wiring.start ctx batch) batch with
  | error f =>
    simp only [hs] at h
    obtain ⟨_, _, _, _, _, _, _, hcall⟩ := h
    obtain ⟨e, _, rfl⟩ := Wiring.call_eq_error_iff.mp hcall
    exact .build
  | ok p =>
    simp only [hs] at h
    obtain ⟨built, he, hp, hn⟩ := h
    exact finish_ends he hp hn

omit [DecidableEq Ty] in
/-- Acyclic hard dependencies that are all provided can be ordered, but for the soft ones. -/
theorem HardAcyclic.hardOrderable {ctx : AppContext Ty} {batch : List (Component Ty)}
    (ha : HardAcyclic ctx batch) (hp : HardProvided ctx batch)
    (hs : ∀ c ∈ batch, c.optionalDependencies = []) : HardOrderable ctx batch := by
  have hirr : Std.Irrefl fun b c : { c // c ∈ batch } =>
      Relation.TransGen (HardEdge ctx batch) c.1 b.1 := ⟨fun c => ha c.1 c.2⟩
  have htrans : IsTrans _ fun b c : { c // c ∈ batch } =>
      Relation.TransGen (HardEdge ctx batch) c.1 b.1 := ⟨fun _ _ _ h h' => h'.trans h⟩
  have hfin : Finite { c // c ∈ batch } := List.finite_toSet batch
  have hwf := Finite.wellFounded_of_trans_of_irrefl fun b c : { c // c ∈ batch } =>
    Relation.TransGen (HardEdge ctx batch) c.1 b.1
  have hall : ∀ c : { c // c ∈ batch }, Orderable ctx batch c.1 := by
    intro c
    induction c using hwf.induction with
    | _ c ih =>
      refine .of_provided (fun d hd => ?_) (by simp [hs c.1 c.2])
      cases hh : ctx.has d with
      | true => exact .inl rfl
      | false =>
        obtain ⟨b, hb, hdb⟩ := (hp c.1 c.2 d hd).resolve_left (by simp [hh])
        exact .inr ⟨b, hb, hdb, ih ⟨b, hb⟩ (.single ⟨hb, d, hd, hh, hdb⟩)⟩
  exact fun c hc d hd => (hp c hc d hd).imp_right fun ⟨b, hb, hdb⟩ => ⟨b, hb, hdb, hall ⟨b, hb⟩⟩

omit [DecidableEq Ty] in
theorem HardAcyclic.of_rank {ctx : AppContext Ty} {batch : List (Component Ty)}
    (rank : Component Ty → Nat)
    (h : ∀ c ∈ batch, ∀ b, HardEdge ctx batch c b → rank b < rank c) : HardAcyclic ctx batch := by
  intro c hc hcycle
  have hdown : ∀ b, Relation.TransGen (HardEdge ctx batch) c b → b ∈ batch ∧ rank b < rank c := by
    intro b hb
    induction hb with
    | single he => exact ⟨he.1, h c hc _ he⟩
    | tail _ he ih => exact ⟨he.1, (h _ ih.1 _ he).trans ih.2⟩
  exact Nat.lt_irrefl _ (hdown c hcycle).2

/-- Refresh succeeds whenever the hard dependencies allow it, and blames a cycle only for one. -/
structure RefreshSucceeds (ctx : AppContext Ty) (batch : List (Component Ty)) : Prop where
  ok : HardProvided ctx batch → HardAcyclic ctx batch → ∃ w, ctx.refresh batch = .ok w
  circular : ∀ f cycle, ctx.refresh batch = .error f →
    f.error.error = .circularDependency cycle → ¬ HardAcyclic ctx batch

def chain : List (Component Nat) := [{ type := 1, fields := [⟨.required, 0, none⟩] }, { type := 0 }]

/-- Components 0 and 1 wait for each other softly, and 2 needs 0. -/
def softCycle : List (Component Nat) :=
  [{ type := 0, fields := [⟨.optional, 1, none⟩] }, { type := 1, fields := [⟨.optional, 0, none⟩] },
    { type := 2, fields := [⟨.required, 0, none⟩] }]

end Kernway
