import Kernway.DiCycles
import Kernway.DiLookup

namespace Kernway

variable {Ty : Type} [DecidableEq Ty]

/-- The constructor of `c`, called after `built`, finds every required field. -/
def Succeeds (ctx : AppContext Ty) (built : List (Component Ty)) (c : Component Ty) : Prop :=
  firstError (c.hardView (ctx.after built)) = none

def HardMet (ctx : AppContext Ty) (built : List (Component Ty)) (c : Component Ty) : Prop :=
  ∀ d ∈ c.dependencies, ctx.has d = true ∨ ∃ b ∈ built, d ∈ b.provides

def SoftMet (rest : List (Component Ty)) (c : Component Ty) : Prop :=
  ∀ d ∈ c.optionalDependencies, ∀ r ∈ rest, d ∉ r.provides

/-- The orders in which the components of a batch can come to be built, each with its hard
dependencies there and no provider of a soft one to come. -/
inductive BuildOrder (ctx : AppContext Ty) (batch : List (Component Ty)) :
    List (Component Ty) → Prop
  | nil : BuildOrder ctx batch []
  | snoc {built rest : List (Component Ty)} {c : Component Ty} :
    BuildOrder ctx batch built → batch.Perm (built ++ c :: rest) → HardMet ctx built c →
    SoftMet (c :: rest) c → Succeeds ctx built c → BuildOrder ctx batch (built ++ [c])

/-- After `built` every remaining component waits for a soft dependency, and for nothing else. -/
structure SoftStall (ctx : AppContext Ty) (batch built rest : List (Component Ty)) : Prop where
  perm : batch.Perm (built ++ rest)
  soft : ∀ c ∈ rest, ¬ SoftMet rest c
  hard : ∀ c ∈ rest, HardMet ctx built c

/-- Constructors that succeed one after another. -/
def AllSucceed (ctx : AppContext Ty) (built : List (Component Ty)) : List (Component Ty) → Prop
  | [] => True
  | c :: cs => Succeeds ctx built c ∧ AllSucceed ctx (built ++ [c]) cs

/-- `c` can be the next component to be built after `built`: in its turn, or at a soft stall. -/
def CanBuild (ctx : AppContext Ty) (batch built : List (Component Ty)) (c : Component Ty) : Prop :=
  (∃ rest, BuildOrder ctx batch built ∧ batch.Perm (built ++ c :: rest) ∧ HardMet ctx built c ∧
    SoftMet (c :: rest) c) ∨
  ∃ early late rest, built = early ++ late ∧ BuildOrder ctx batch early ∧
    SoftStall ctx batch early (late ++ c :: rest) ∧ AllSucceed ctx early late

theorem CanBuild.mem {ctx : AppContext Ty} {batch built : List (Component Ty)} {c : Component Ty}
    (h : CanBuild ctx batch built c) : c ∈ batch := by
  rcases h with ⟨rest, _, hp, _⟩ | ⟨early, late, rest, _, _, hstall, _⟩
  · exact hp.mem_iff.mpr (by simp)
  · exact hstall.perm.mem_iff.mpr (by simp)

/-- Each component finds the same behind its required fields whenever it can be built, and all
constructors that can fail, fail in the same way. -/
structure OrderSettled (ctx : AppContext Ty) (batch : List (Component Ty)) : Prop where
  view : ∀ c built built', CanBuild ctx batch built c → CanBuild ctx batch built' c →
    c.hardView (ctx.after built) = c.hardView (ctx.after built')
  kind : ∀ c c' built built' e e', CanBuild ctx batch built c → CanBuild ctx batch built' c' →
    firstError (c.hardView (ctx.after built)) = some e →
    firstError (c'.hardView (ctx.after built')) = some e' → e.kind = e'.kind

def outcomeKind (r : Except (Failure Ty) (Wiring Ty)) : Option DiErrorKind :=
  match r with
  | .ok _ => none
  | .error f => some f.error.error.kind

def callsOf (r : Except (Failure Ty) (Wiring Ty)) : List (Call Ty) :=
  match r with
  | .ok w => w.calls
  | .error f => f.calls

/-- Two registration orders end alike, resolve every type alike, and show each constructor the same
bean, or error, behind each of its required fields. -/
structure OrderIrrelevant (ctx : AppContext Ty) (batch : List (Component Ty)) : Prop where
  outcome : ∀ defs defs', defs.Perm batch → defs'.Perm batch →
    outcomeKind (ctx.refresh defs) = outcomeKind (ctx.refresh defs')
  get : ∀ defs defs' w w', defs.Perm batch → defs'.Perm batch →
    ctx.refresh defs = .ok w → ctx.refresh defs' = .ok w' → ∀ t, w.ctx.get t = w'.ctx.get t
  seen : ∀ defs defs', defs.Perm batch → defs'.Perm batch →
    ∀ call ∈ callsOf (ctx.refresh defs), ∀ call' ∈ callsOf (ctx.refresh defs'),
      call.component = call'.component → call.hard = call'.hard

theorem AppContext.after_snoc (ctx : AppContext Ty) (built : List (Component Ty))
    (c : Component Ty) : ctx.after (built ++ [c]) = (ctx.after built).withComponent c := by
  simp [AppContext.after]

/-- Hooks that do not fail leave the outcome of a call to what the constructor finds. -/
theorem call_after {ctx : AppContext Ty} {built : List (Component Ty)} {c : Component Ty}
    {w : Wiring Ty} (hook : ∀ ctx, c.postConstruct ctx = .ok ()) (hw : w.ctx = ctx.after built) :
    match firstError (c.hardView (ctx.after built)) with
    | some e => w.call c =
        .error ⟨.build e, w.calls ++ [⟨c, c.hardView (ctx.after built)⟩]⟩
    | none => w.call c = .ok { w with
        ctx := ctx.after (built ++ [c])
        calls := w.calls ++ [⟨c, c.hardView (ctx.after built)⟩] } := by
  have h := c.construct_error (ctx.after built)
  split
  next e he =>
    simp only [he] at h
    simp only [Wiring.call, Component.build_eq, hw, h, Except.bind]
  next hn =>
    simp only [hn] at h
    obtain ⟨fields, hf⟩ := h
    simp only [Wiring.call, Component.build_eq, hw, hf, hook, Except.bind, AppContext.after_snoc]

/-- The calls recorded so far were all made where they could be. -/
def CallsSound (ctx : AppContext Ty) (batch : List (Component Ty)) (calls : List (Call Ty)) :
    Prop :=
  ∀ call ∈ calls, ∃ built, CanBuild ctx batch built call.component ∧
    call.hard = call.component.hardView (ctx.after built)

theorem CallsSound.snoc {ctx : AppContext Ty} {batch built : List (Component Ty)}
    {calls : List (Call Ty)} {c : Component Ty} (h : CallsSound ctx batch calls)
    (hc : CanBuild ctx batch built c) :
    CallsSound ctx batch (calls ++ [⟨c, c.hardView (ctx.after built)⟩]) := by
  intro call hcall
  rcases List.mem_append.mp hcall with hcall | hcall
  · exact h call hcall
  · rw [List.mem_singleton.mp hcall]
    exact ⟨built, hc, rfl⟩

/-- What a state of the pass records: a call that found everything, for each component built. -/
def CallsComplete (built : List (Component Ty)) (calls : List (Call Ty)) : Prop :=
  ∀ c ∈ built, ∃ call ∈ calls, call.component = c ∧ firstError call.hard = none

omit [DecidableEq Ty] in
theorem CallsComplete.snoc {built : List (Component Ty)} {calls : List (Call Ty)}
    {c : Component Ty} {hard : List (Except (DiError Ty) (Bean Ty))} (h : CallsComplete built calls)
    (hn : firstError hard = none) : CallsComplete (built ++ [c]) (calls ++ [⟨c, hard⟩]) := by
  intro x hx
  rcases List.mem_append.mp hx with hx | hx
  · obtain ⟨call, hcall, hc⟩ := h x hx
    exact ⟨call, List.mem_append_left _ hcall, hc⟩
  · rw [List.mem_singleton.mp hx]
    exact ⟨⟨c, hard⟩, by simp, rfl, hn⟩

theorem allSucceed_snoc {ctx : AppContext Ty} {built late : List (Component Ty)} {c : Component Ty}
    (h : AllSucceed ctx built late) (hc : Succeeds ctx (built ++ late) c) :
    AllSucceed ctx built (late ++ [c]) := by
  induction late generalizing built with
  | nil => exact ⟨by simpa using hc, trivial⟩
  | cons x late ih => exact ⟨h.1, ih h.2 (by simpa using hc)⟩

section

variable {ctx : AppContext Ty} {batch : List (Component Ty)}
  (hook : ∀ c ∈ batch, ∀ ctx, c.postConstruct ctx = .ok ())

include hook

/-- The states of the sweeps are the build orders, and record the calls along them. -/
theorem Early.buildOrder {built : List (Component Ty)} {w : Wiring Ty}
    (h : Early ctx batch built w) : BuildOrder ctx batch built ∧ w.ctx = ctx.after built ∧
      CallsSound ctx batch w.calls ∧ CallsComplete built w.calls := by
  induction h with
  | start => exact ⟨.nil, rfl, by simp [CallsSound, Wiring.start], by simp [CallsComplete]⟩
  | @step built rest w w' c he hperm hr hcall ih =>
    obtain ⟨horder, hctx, hsound, hcomplete⟩ := ih
    obtain ⟨hard, soft⟩ := (he.ready_iff hperm c).mp hr
    have hc := call_after (hook c (hperm.mem_iff.mpr (by simp))) hctx
    have hcan : CanBuild ctx batch built c := .inl ⟨rest, horder, hperm, hard, soft⟩
    split at hc
    next e _ => simp [hc] at hcall
    next hn =>
      obtain rfl := Except.ok.inj (hc.symm.trans hcall)
      exact ⟨.snoc horder hperm hard soft hn, rfl, hsound.snoc hcan, hcomplete.snoc hn⟩

theorem BuildOrder.early {built : List (Component Ty)} (h : BuildOrder ctx batch built) :
    ∃ w, Early ctx batch built w ∧ w.ctx = ctx.after built := by
  induction h with
  | nil => exact ⟨_, .start, rfl⟩
  | @snoc built rest c _ hperm hard soft hs ih =>
    obtain ⟨w, he, hctx⟩ := ih
    have hc := call_after (hook c (hperm.mem_iff.mpr (by simp))) hctx
    have hs' : firstError (c.hardView (ctx.after built)) = none := hs
    simp only [hs'] at hc
    exact ⟨_, .step he hperm ((he.ready_iff hperm c).mpr ⟨hard, soft⟩) hc, rfl⟩

/-- How a failed pass failed: at a call that could be made, and that records what was missing. -/
def FailureSound (ctx : AppContext Ty) (batch : List (Component Ty)) (f : Failure Ty) : Prop :=
  CallsSound ctx batch f.calls ∧ ∃ c built e, CanBuild ctx batch built c ∧ f.error = .build e ∧
    firstError (c.hardView (ctx.after built)) = some e

theorem buildRest_sound {early cs : List (Component Ty)} {w : Wiring Ty}
    (horder : BuildOrder ctx batch early) (late : List (Component Ty))
    (hstall : SoftStall ctx batch early (late ++ cs))
    (hlate : AllSucceed ctx early late) (hctx : w.ctx = ctx.after (early ++ late))
    (hsound : CallsSound ctx batch w.calls) (hcomplete : CallsComplete (early ++ late) w.calls) :
    match buildRest w cs with
    | .error f => FailureSound ctx batch f
    | .ok w' => w'.ctx = ctx.after (early ++ (late ++ cs)) ∧ CallsSound ctx batch w'.calls ∧
        CallsComplete (early ++ (late ++ cs)) w'.calls := by
  induction cs generalizing late w with
  | nil => exact ⟨by simpa using hctx, hsound, by simpa using hcomplete⟩
  | cons c cs ih =>
    have hcan : CanBuild ctx batch (early ++ late) c :=
      .inr ⟨early, late, cs, rfl, horder, hstall, hlate⟩
    have hc := call_after (hook c (hstall.perm.mem_iff.mpr (by simp))) hctx
    unfold buildRest
    split at hc
    next e he =>
      simp only [hc, bind, Except.bind]
      exact ⟨hsound.snoc hcan, c, _, e, hcan, rfl, he⟩
    next hn =>
      have hnext := ih (late ++ [c])
        (w := { w with
          ctx := ctx.after (early ++ (late ++ [c]))
          available := fun t => w.available t || t ∈ c.provides
          calls := w.calls ++ [⟨c, c.hardView (ctx.after (early ++ late))⟩] })
        (by simpa using hstall) (allSucceed_snoc hlate hn) rfl (hsound.snoc hcan)
        (by simpa using hcomplete.snoc hn)
      simp only [hc, bind, Except.bind]
      simpa using hnext

variable (ctx) in
/-- What a pass records and how it ends. -/
theorem refresh_sound :
    match ctx.refresh batch with
    | .error ⟨.build e, calls⟩ => FailureSound ctx batch ⟨.build e, calls⟩
    | .error ⟨.stalled _, calls⟩ => CallsSound ctx batch calls ∧ ∃ built rest w,
        Early ctx batch built w ∧ batch.Perm (built ++ rest) ∧
        (∀ c ∈ rest, w.ready c = false) ∧ CallsComplete built calls
    | .ok w => CallsSound ctx batch w.calls ∧ ∃ built, batch.Perm built ∧
        w.ctx = ctx.after built ∧ CallsComplete built w.calls := by
  have h := sweeps_start ctx batch
  unfold AppContext.refresh
  simp only [bind, Except.bind]
  cases hs : sweeps (Wiring.start ctx batch) batch with
  | error f =>
    simp only [hs] at h
    obtain ⟨built, rest, w, c, he, hp, hr, hcall⟩ := h
    obtain ⟨horder, hctx, hsound, _⟩ := he.buildOrder hook
    obtain ⟨hard, soft⟩ := (he.ready_iff hp c).mp hr
    have hcan : CanBuild ctx batch built c := .inl ⟨rest, horder, hp, hard, soft⟩
    have hc := call_after (hook c (hp.mem_iff.mpr (by simp))) hctx
    split at hc
    next e hfirst =>
      obtain rfl := Except.error.inj (hc.symm.trans hcall)
      exact ⟨hsound.snoc hcan, c, built, e, hcan, rfl, hfirst⟩
    next => simp [hc] at hcall
  | ok p =>
    obtain ⟨w, rest⟩ := p
    simp only [hs] at h
    obtain ⟨built, he, hp, hn⟩ := h
    obtain ⟨horder, hctx, hsound, hcomplete⟩ := he.buildOrder hook
    dsimp only
    unfold finish
    cases missing w (fun t => 0 < providers batch t) rest with
    | some c => exact ⟨hsound, built, rest, w, he, hp, hn, hcomplete⟩
    | none =>
      dsimp only
      by_cases hb : blocked w rest = []
      · rw [if_neg (by simpa using hb)]
        have hard : ∀ c ∈ rest, HardMet ctx built c := by
          intro c hc d hd
          rw [← he.available]
          by_contra ha
          exact List.ne_nil_of_mem (List.mem_filter.mpr ⟨hc,
            List.any_eq_true.mpr ⟨d, hd, by simpa using ha⟩⟩) hb
        have hstall : SoftStall ctx batch built rest := ⟨hp, fun c hc hsoft => by
          have := (he.ready_iff hp c).mpr ⟨hard c hc, hsoft⟩
          simp [hn c hc] at this, hard⟩
        have hrest := buildRest_sound (w := w) hook horder [] hstall trivial
          (by simpa using hctx) hsound (by simpa using hcomplete)
        cases hr : buildRest w rest with
        | error f =>
          obtain ⟨error, calls⟩ := f
          simp only [hr] at hrest
          obtain ⟨e, rfl⟩ := buildRest_error hr
          exact hrest
        | ok w' =>
          simp only [hr, List.nil_append] at hrest
          exact ⟨hrest.2.1, _, hp, hrest.1, hrest.2.2⟩
      · rw [if_pos hb]
        exact ⟨hsound, built, rest, w, he, hp, hn, hcomplete⟩

theorem SoftStall.hardOrderable {built rest : List (Component Ty)}
    (horder : BuildOrder ctx batch built) (h : SoftStall ctx batch built rest) :
    HardOrderable ctx batch := by
  obtain ⟨w, he, _⟩ := horder.early hook
  intro c hc d hd
  rcases List.mem_append.mp (h.perm.mem_iff.mp hc) with hc | hc
  · exact (he.orderable c hc).hard hd
  · exact (h.hard c hc d hd).imp_right fun ⟨b, hb, hdb⟩ => ⟨b, he.subset hb, hdb, he.orderable b hb⟩

/-- A pass that no constructor fails calls everything that can be built, and with success. -/
theorem CanBuild.called {built : List (Component Ty)} {c : Component Ty}
    (h : CanBuild ctx batch built c)
    (hn : ∀ f, ctx.refresh batch = .error f → ∀ e, f.error ≠ .build e) :
    ∃ call ∈ callsOf (ctx.refresh batch), call.component = c ∧ firstError call.hard = none := by
  have hs := refresh_sound ctx hook
  have hends := refresh_ends ctx batch
  have hc := h.mem
  cases hr : ctx.refresh batch with
  | ok w =>
    simp only [hr] at hs
    obtain ⟨_, built', hp, _, hcomplete⟩ := hs
    exact hcomplete c (hp.mem_iff.mp hc)
  | error f =>
    obtain ⟨error, calls⟩ := f
    cases error with
    | build e => exact absurd rfl (hn _ hr e)
    | stalled e =>
      simp only [hr] at hs hends
      obtain ⟨_, built', rest', w', he', hp', hnot, hcomplete⟩ := hs
      rcases h with ⟨rest, horder, hp, hard, soft⟩ | ⟨early, late, rest, _, horder, hstall, _⟩
      · obtain ⟨w, he, _⟩ := horder.early hook
        have ho := he.orderable_of_ready hp ((he.ready_iff hp c).mpr ⟨hard, soft⟩) he.orderable
        exact hcomplete c ((List.mem_append.mp (hp'.mem_iff.mp hc)).resolve_right
          (ho.not_remaining he' hp' hnot))
      · have hmet := hstall.hardOrderable hook horder
        cases hends with
        | missing hno => exact absurd hmet.provided hno
        | circular _ hno => exact absurd hmet hno

end

theorem BuildOrder.perm {ctx : AppContext Ty} {batch batch' built : List (Component Ty)}
    (h : BuildOrder ctx batch built) (hp : batch.Perm batch') : BuildOrder ctx batch' built := by
  induction h with
  | nil => exact .nil
  | snoc _ hperm hard soft hs ih => exact .snoc ih (hp.symm.trans hperm) hard soft hs

theorem CanBuild.perm {ctx : AppContext Ty} {batch batch' built : List (Component Ty)}
    {c : Component Ty} (h : CanBuild ctx batch built c) (hp : batch.Perm batch') :
    CanBuild ctx batch' built c := by
  rcases h with ⟨rest, horder, hperm, hard, soft⟩ | ⟨early, late, rest, heq, horder, hstall, hlate⟩
  · exact .inl ⟨rest, horder.perm hp, hp.symm.trans hperm, hard, soft⟩
  · exact .inr ⟨early, late, rest, heq, horder.perm hp,
      ⟨hp.symm.trans hstall.perm, hstall.soft, hstall.hard⟩, hlate⟩

/-- The kind of a stall depends on the batch only. -/
theorem stalled_kind {ctx : AppContext Ty} {defs defs' : List (Component Ty)} (hp : defs.Perm defs')
    (hn : ∀ f, ctx.refresh defs = .error f → ∀ e, f.error ≠ .build e)
    (hn' : ∀ f, ctx.refresh defs' = .error f → ∀ e, f.error ≠ .build e) :
    outcomeKind (ctx.refresh defs) = outcomeKind (ctx.refresh defs') := by
  have h := refresh_ends ctx defs
  have h' := refresh_ends ctx defs'
  generalize ctx.refresh defs = r, ctx.refresh defs' = r' at *
  cases h with
  | build => exact absurd rfl (hn _ rfl _)
  | ok hm =>
    cases h' with
    | ok => rfl
    | build => exact absurd rfl (hn' _ rfl _)
    | missing hno => exact absurd (hm.perm hp).provided hno
    | circular _ hno => exact absurd (hm.perm hp) hno
  | missing hno =>
    cases h' with
    | ok hm => exact absurd (hm.perm hp.symm).provided hno
    | build => exact absurd rfl (hn' _ rfl _)
    | missing => rfl
    | circular hprov _ => exact absurd (hprov.perm hp.symm) hno
  | circular hprov hno =>
    cases h' with
    | ok hm => exact absurd (hm.perm hp.symm) hno
    | build => exact absurd rfl (hn' _ rfl _)
    | missing hno' => exact absurd (hprov.perm hp) hno'
    | circular => rfl

section

variable {ctx : AppContext Ty} {batch : List (Component Ty)}
  (hook : ∀ c ∈ batch, ∀ ctx, c.postConstruct ctx = .ok ())

include hook

omit [DecidableEq Ty] in
theorem hook_perm {defs : List (Component Ty)} (hp : defs.Perm batch) :
    ∀ c ∈ defs, ∀ ctx, c.postConstruct ctx = .ok () :=
  fun c hc => hook c (hp.mem_iff.mp hc)

theorem callsSound_perm {defs : List (Component Ty)} (hp : defs.Perm batch) :
    CallsSound ctx batch (callsOf (ctx.refresh defs)) := by
  have hs := refresh_sound ctx (hook_perm hook hp)
  have hcalls : CallsSound ctx defs (callsOf (ctx.refresh defs)) := by
    generalize ctx.refresh defs = r at hs
    split at hs
    · exact hs.1
    · exact hs.1
    · exact hs.1
  intro call hcall
  obtain ⟨built, hcan, hh⟩ := hcalls call hcall
  exact ⟨built, hcan.perm hp, hh⟩

/-- A constructor that fails in one order fails in every order, where views are settled. -/
theorem OrderSettled.build_error (h : OrderSettled ctx batch) {defs defs' : List (Component Ty)}
    (hp : defs.Perm batch) (hp' : defs'.Perm batch) {e : DiError Ty} {calls : List (Call Ty)}
    (hr : ctx.refresh defs = .error ⟨.build e, calls⟩) :
    ∃ e' calls', ctx.refresh defs' = .error ⟨.build e', calls'⟩ ∧ e.kind = e'.kind := by
  have hs := refresh_sound ctx (hook_perm hook hp)
  simp only [hr] at hs
  obtain ⟨_, c, built, e₀, hcan, heq, hfirst⟩ := hs
  obtain rfl : e = e₀ := by simpa using heq
  have hcan := hcan.perm hp
  by_cases hn : ∀ f, ctx.refresh defs' = .error f → ∀ e, f.error ≠ .build e
  · obtain ⟨call, hcall, rfl, hnone⟩ :=
      (hcan.perm hp'.symm).called (hook_perm hook hp') hn
    obtain ⟨built', hcan', hhard⟩ := callsSound_perm hook hp' call hcall
    rw [hhard, ← h.view _ _ _ hcan hcan', hfirst] at hnone
    simp at hnone
  · simp only [not_forall, not_not] at hn
    obtain ⟨⟨error, calls'⟩, hr', e', rfl⟩ := hn
    refine ⟨e', calls', hr', ?_⟩
    have hs' := refresh_sound ctx (hook_perm hook hp')
    simp only [hr'] at hs'
    obtain ⟨_, c', built', e₁, hcan', heq', hfirst'⟩ := hs'
    obtain rfl : e' = e₁ := by simpa using heq'
    exact h.kind _ _ _ _ _ _ hcan (hcan'.perm hp') hfirst hfirst'

theorem OrderSettled.irrelevant (h : OrderSettled ctx batch) : OrderIrrelevant ctx batch := by
  refine ⟨fun defs defs' hp hp' => ?_, fun defs defs' w w' hp hp' hr hr' t => ?_,
    fun defs defs' hp hp' call hcall call' hcall' heq => ?_⟩
  · by_cases hn : ∀ f, ctx.refresh defs = .error f → ∀ e, f.error ≠ .build e
    · by_cases hn' : ∀ f, ctx.refresh defs' = .error f → ∀ e, f.error ≠ .build e
      · exact stalled_kind (hp.trans hp'.symm) hn hn'
      · simp only [not_forall, not_not] at hn'
        obtain ⟨⟨error, calls⟩, hr, e, rfl⟩ := hn'
        obtain ⟨e', calls', hr', _⟩ := h.build_error hook hp' hp hr
        exact absurd rfl (hn _ hr' e')
    · simp only [not_forall, not_not] at hn
      obtain ⟨⟨error, calls⟩, hr, e, rfl⟩ := hn
      obtain ⟨e', calls', hr', hkind⟩ := h.build_error hook hp hp' hr
      rw [hr, hr']
      exact congrArg some hkind
  · have hs := refresh_sound ctx (hook_perm hook hp)
    have hs' := refresh_sound ctx (hook_perm hook hp')
    simp only [hr] at hs
    simp only [hr'] at hs'
    obtain ⟨_, built, hb, hctx, _⟩ := hs
    obtain ⟨_, built', hb', hctx', _⟩ := hs'
    rw [hctx, hctx']
    exact ctx.get_after_perm (hb.symm.trans (hp.trans (hp'.symm.trans hb'))) t
  · obtain ⟨built, hcan, hhard⟩ := callsSound_perm hook hp call hcall
    obtain ⟨built', hcan', hhard'⟩ := callsSound_perm hook hp' call' hcall'
    rw [← heq] at hcan' hhard'
    rw [hhard, hhard', h.view _ _ _ hcan hcan']

end

theorem Wiring.call_calls (w : Wiring Ty) (c : Component Ty) :
    match w.call c with
    | .error f => f.calls = w.calls ++ [⟨c, c.hardView w.ctx⟩]
    | .ok w' => w'.calls = w.calls ++ [⟨c, c.hardView w.ctx⟩] := by
  unfold Wiring.call
  cases c.build w.ctx <;> rfl

theorem sweep_calls (w : Wiring Ty) (cs : List (Component Ty)) :
    w.calls ⊆ callsOf ((sweep w cs).map Prod.fst) := by
  induction cs generalizing w with
  | nil => exact List.Subset.refl _
  | cons c cs ih =>
    unfold sweep
    split
    · have hc := w.call_calls c
      simp only [bind, Except.bind]
      cases hcall : w.call c with
      | error f =>
        simp only [hcall] at hc
        simp [callsOf, Except.map, hc]
      | ok w' =>
        simp only [hcall] at hc
        refine List.Subset.trans ?_ (ih (w'.provide c))
        simp [Wiring.provide, hc]
    · have hrest := ih w
      cases hs : sweep w cs <;> (rw [hs] at hrest; exact hrest)

theorem sweeps_calls (w : Wiring Ty) (cs : List (Component Ty)) :
    w.calls ⊆ callsOf ((sweeps w cs).map Prod.fst) := by
  induction hl : cs.length using Nat.strongRecOn generalizing cs w with
  | _ l ih =>
    have hsweep := sweep_calls w cs
    cases hs : sweep w cs with
    | error f =>
      rw [sweeps_error hs]
      simpa [hs] using hsweep
    | ok p =>
      obtain ⟨w', rest⟩ := p
      rw [hs] at hsweep
      rw [sweeps_ok hs]
      by_cases hlt : rest.length < cs.length
      · rw [if_pos hlt]
        exact List.Subset.trans hsweep (ih rest.length (by omega) w' rest rfl)
      · rw [if_neg hlt]
        exact hsweep

theorem sweep_calls_sweeps (w : Wiring Ty) (cs : List (Component Ty)) :
    callsOf ((sweep w cs).map Prod.fst) ⊆ callsOf ((sweeps w cs).map Prod.fst) := by
  cases hs : sweep w cs with
  | error f =>
    rw [sweeps_error hs]
    exact List.Subset.refl _
  | ok p =>
    obtain ⟨w', rest⟩ := p
    rw [sweeps_ok hs]
    split
    · exact sweeps_calls w' rest
    · exact List.Subset.refl _

theorem buildRest_calls (w : Wiring Ty) (cs : List (Component Ty)) :
    w.calls ⊆ callsOf (buildRest w cs) := by
  induction cs generalizing w with
  | nil => exact List.Subset.refl _
  | cons c cs ih =>
    have hc := w.call_calls c
    simp only [buildRest, bind, Except.bind]
    cases hcall : w.call c with
    | error f => simp only [hcall] at hc; simp [callsOf, hc]
    | ok w' =>
      simp only [hcall] at hc
      refine List.Subset.trans ?_
        (ih { w' with available := fun t => w'.available t || t ∈ c.provides })
      simp [hc]

theorem finish_calls (w : Wiring Ty) (p : Ty → Bool) (cs : List (Component Ty)) :
    w.calls ⊆ callsOf (finish w p cs) := by
  unfold finish
  split
  · exact List.Subset.refl _
  · split
    · exact List.Subset.refl _
    · exact buildRest_calls w cs

theorem refresh_calls (ctx : AppContext Ty) (defs : List (Component Ty)) :
    callsOf ((sweeps (.start ctx defs) defs).map Prod.fst) ⊆ callsOf (ctx.refresh defs) := by
  unfold AppContext.refresh
  cases sweeps (.start ctx defs) defs with
  | error f => exact List.Subset.refl _
  | ok p => exact finish_calls ..

/-- Registered in a build order, components are built in it by the first sweep. -/
theorem Early.sweep {ctx : AppContext Ty} {batch built : List (Component Ty)} {w : Wiring Ty}
    (h : Early ctx batch built w) (cs : List (Component Ty)) :
    sweep (.start ctx batch) (built ++ cs) = sweep w cs := by
  induction h generalizing cs with
  | start => rfl
  | @step built rest w w' c _ _ hr hcall ih =>
    rw [List.append_assoc, ih, List.singleton_append]
    conv_lhs => unfold Kernway.sweep
    simp only [hr, if_true, hcall, bind, Except.bind]

theorem sweeps_stall {ctx : AppContext Ty} {built rest : List (Component Ty)} {w : Wiring Ty}
    (he : Early ctx (built ++ rest) built w) (hn : ∀ c ∈ rest, w.ready c = false) :
    sweeps (.start ctx (built ++ rest)) (built ++ rest) = .ok (w, rest) := by
  have hstall : sweep w rest = .ok (w, rest) := sweep_not_ready hn
  have hsweep := he.sweep rest
  rw [hstall] at hsweep
  rw [sweeps_ok hsweep, sweeps_ok hstall]
  simp

theorem finish_stall {w : Wiring Ty} {p : Ty → Bool} {rest : List (Component Ty)}
    (h : ∀ c ∈ rest, ∀ d ∈ c.dependencies, w.available d = true) :
    finish w p rest = buildRest w rest := by
  have hm : missing w p rest = none := by
    refine List.find?_eq_none.mpr fun c hc hany => ?_
    obtain ⟨d, hd, hna⟩ := List.any_eq_true.mp hany
    simp [h c hc d hd] at hna
  have hb : blocked w rest = [] := by
    refine List.filter_eq_nil_iff.mpr fun c hc hany => ?_
    obtain ⟨d, hd, hna⟩ := List.any_eq_true.mp hany
    simp [h c hc d hd] at hna
  simp only [finish, hm, hb, ne_eq, not_true_eq_false, if_false]

section

variable {ctx : AppContext Ty} {batch : List (Component Ty)}
  (hook : ∀ c ∈ batch, ∀ ctx, c.postConstruct ctx = .ok ())

include hook

theorem buildRest_late {built late : List (Component Ty)} {w : Wiring Ty}
    (hlate : AllSucceed ctx built late) (hctx : w.ctx = ctx.after built)
    (hmem : ∀ c ∈ late, c ∈ batch) (cs : List (Component Ty)) :
    ∃ w', buildRest w (late ++ cs) = buildRest w' cs ∧ w'.ctx = ctx.after (built ++ late) := by
  induction late generalizing built w with
  | nil => exact ⟨w, rfl, by simpa using hctx⟩
  | cons c late ih =>
    have hc := call_after (hook c (hmem c (by simp))) hctx
    have hs : firstError (c.hardView (ctx.after built)) = none := hlate.1
    simp only [hs] at hc
    obtain ⟨w', hb, hctx'⟩ := ih hlate.2
      (w := { w with
        ctx := ctx.after (built ++ [c])
        available := fun t => w.available t || t ∈ c.provides
        calls := w.calls ++ [⟨c, c.hardView (ctx.after built)⟩] })
      rfl (fun x hx => hmem x (List.mem_cons_of_mem c hx))
    refine ⟨w', ?_, by simpa using hctx'⟩
    rw [← hb, List.cons_append, buildRest]
    simp only [hc, bind, Except.bind]

/-- Whatever can be built next is built next in some registration order. -/
theorem CanBuild.realised {built : List (Component Ty)} {c : Component Ty}
    (h : CanBuild ctx batch built c) : ∃ defs, defs.Perm batch ∧
      ⟨c, c.hardView (ctx.after built)⟩ ∈ callsOf (ctx.refresh defs) ∧
      ∀ e, firstError (c.hardView (ctx.after built)) = some e →
        ∃ calls, ctx.refresh defs = .error ⟨.build e, calls⟩ := by
  rcases h with ⟨rest, horder, hp, hard, soft⟩ | ⟨early, late, rest, rfl, horder, hstall, hlate⟩
  · refine ⟨built ++ c :: rest, hp.symm, ?_⟩
    obtain ⟨w, he, hctx⟩ := (horder.perm hp).early (hook_perm hook hp.symm)
    have hr := (he.ready_iff (List.Perm.refl _) c).mpr ⟨hard, soft⟩
    have hc := call_after (hook c (hp.mem_iff.mpr (by simp))) hctx
    have hsweep := he.sweep (c :: rest)
    rw [Kernway.sweep, if_pos hr] at hsweep
    split at hc
    next e hfirst =>
      simp only [hc, bind, Except.bind] at hsweep
      have href : ctx.refresh (built ++ c :: rest) =
          .error ⟨.build e, w.calls ++ [⟨c, c.hardView (ctx.after built)⟩]⟩ := by
        simp only [AppContext.refresh, sweeps_error hsweep, bind, Except.bind]
      refine ⟨by simp [href, callsOf], fun e' he' => ?_⟩
      obtain rfl : e = e' := by simpa [hfirst] using he'
      exact ⟨_, href⟩
    next hn =>
      refine ⟨?_, fun e he => by simp [hn] at he⟩
      refine refresh_calls _ _ (sweep_calls_sweeps _ _ ?_)
      simp only [hsweep, hc, bind, Except.bind]
      exact sweep_calls _ _ (by simp [Wiring.provide])
  · have hp := hstall.perm
    refine ⟨early ++ (late ++ c :: rest), hp.symm, ?_⟩
    obtain ⟨w, he, hctx⟩ := (horder.perm hp).early (hook_perm hook hp.symm)
    have hmet : ∀ x ∈ late ++ c :: rest, ∀ d ∈ x.dependencies, w.available d = true :=
      fun x hx d hd => (he.available d).mpr (hstall.hard x hx d hd)
    have hnot : ∀ x ∈ late ++ c :: rest, w.ready x = false := by
      intro x hx
      rw [← Bool.not_eq_true, he.ready_iff (List.Perm.refl _)]
      exact fun h => hstall.soft x hx h.2
    obtain ⟨w', hb, hctx'⟩ := buildRest_late hook hlate hctx
      (fun x hx => hp.mem_iff.mpr (by simp [hx])) (c :: rest)
    have href : ctx.refresh (early ++ (late ++ c :: rest)) = buildRest w' (c :: rest) := by
      simp only [AppContext.refresh, sweeps_stall he hnot, bind, Except.bind, finish_stall hmet, hb]
    have hc := call_after (hook c (hp.mem_iff.mpr (by simp))) hctx'
    rw [href, buildRest]
    split at hc
    next e hfirst =>
      simp only [hc, bind, Except.bind]
      refine ⟨by simp [callsOf], fun e' he' => ?_⟩
      obtain rfl : e = e' := by simpa [hfirst] using he'
      exact ⟨_, rfl⟩
    next hn =>
      refine ⟨?_, fun e he => by simp [hn] at he⟩
      simp only [hc, bind, Except.bind]
      exact buildRest_calls _ _ (by simp)

end

/-- Where hooks succeed, the registration order does not matter exactly when no component can see
its hard dependencies in two ways, nor two constructors fail in two ways. -/
theorem orderIrrelevant_iff (ctx : AppContext Ty) (batch : List (Component Ty))
    (hook : ∀ c ∈ batch, ∀ ctx, c.postConstruct ctx = .ok ()) :
    OrderIrrelevant ctx batch ↔ OrderSettled ctx batch := by
  refine ⟨fun h => ⟨fun c built built' hc hc' => ?_,
    fun c c' built built' e e' hc hc' he he' => ?_⟩,
    fun h => h.irrelevant hook⟩
  · obtain ⟨defs, hp, hcall, _⟩ := hc.realised hook
    obtain ⟨defs', hp', hcall', _⟩ := hc'.realised hook
    exact h.seen defs defs' hp hp' _ hcall _ hcall' rfl
  · obtain ⟨defs, hp, _, hfail⟩ := hc.realised hook
    obtain ⟨defs', hp', _, hfail'⟩ := hc'.realised hook
    obtain ⟨calls, hr⟩ := hfail e he
    obtain ⟨calls', hr'⟩ := hfail' e' he'
    have hkind := h.outcome defs defs' hp hp'
    rw [hr, hr'] at hkind
    exact Option.some.inj hkind

theorem orderIrrelevant_chain :
    OrderIrrelevant ({} : AppContext Nat) chain ↔ OrderSettled ({} : AppContext Nat) chain :=
  orderIrrelevant_iff {} chain (by simp [chain])

/-- A framework default and a user bean for type 0, and a component that needs it. -/
def frameworkBean : Component Nat := { type := 1, provided := [0], origin := .frameworkDefault }

def userBean : Component Nat := { type := 2, provided := [0] }

def consumer : Component Nat := { type := 3, fields := [⟨.required, 0, none⟩] }

/-- The consumer is injected with the default where that is registered before the user bean. -/
theorem not_orderIrrelevant :
    ¬ ∀ (ctx : AppContext Nat) (batch : List (Component Nat)), (batch.map Component.type).Nodup →
      (∀ c ∈ batch, ∀ ctx, c.postConstruct ctx = .ok ()) → OrderIrrelevant ctx batch := by
  intro h
  have hook : ∀ c ∈ [frameworkBean, consumer, userBean], ∀ ctx, c.postConstruct ctx = .ok () := by
    simp [frameworkBean, consumer, userBean]
  have hswap : [userBean, consumer, frameworkBean].Perm [frameworkBean, consumer, userBean] :=
    List.reverse_perm [frameworkBean, consumer, userBean]
  have hfirst : (callsOf (({} : AppContext Nat).refresh [frameworkBean, consumer, userBean])).any
      (fun call => call.component.type == 3 &&
        call.hard.map Except.toOption == [some (.component 1)]) = true := by decide +kernel
  have hsecond : (callsOf (({} : AppContext Nat).refresh [userBean, consumer, frameworkBean])).any
      (fun call => call.component.type == 3 &&
        call.hard.map Except.toOption == [some (.component 2)]) = true := by decide +kernel
  have hconsumer : ∀ {defs : List (Component Nat)} {call : Call Nat},
      defs.Perm [frameworkBean, consumer, userBean] →
      call ∈ callsOf (({} : AppContext Nat).refresh defs) → call.component.type = 3 →
      call.component = consumer := by
    intro defs call hp hcall htype
    obtain ⟨built, hcan, _⟩ := callsSound_perm hook hp call hcall
    have hmem := hcan.mem
    simp only [List.mem_cons, List.not_mem_nil, or_false] at hmem
    rcases hmem with hc | hc | hc
    · simp [hc, frameworkBean] at htype
    · exact hc
    · simp [hc, userBean] at htype
  obtain ⟨call, hcall, hview⟩ := List.any_eq_true.mp hfirst
  obtain ⟨call', hcall', hview'⟩ := List.any_eq_true.mp hsecond
  simp only [Bool.and_eq_true, beq_iff_eq] at hview hview'
  have hsame := (h {} _ (by decide) hook).seen _ _ (.refl _) hswap call hcall call' hcall'
    ((hconsumer (.refl _) hcall hview.1).trans (hconsumer hswap hcall' hview'.1).symm)
  have := hview.2.symm.trans (hsame ▸ hview'.2)
  simp at this

end Kernway
