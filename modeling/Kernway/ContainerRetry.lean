import Kernway.ContainerInvariant

namespace Kernway

namespace Container

/-- What `#[derive(Component)]` generates for a type: its bindings publish the bean under each of
the traits it provides. -/
structure Derived where
  beanOrigin : BeanOrigin := .user
  isPrimary : Bool := false
  qualifier : Option Text := none
  dependencies : List RustType := []
  optionalDependencies : List RustType := []
  provided : List RustType := []
  build : Reader (Bean RustType)
  postConstruct : Bean RustType → Reader Unit := fun _ => .done (.ok ())

def Derived.impl (components : RustType → Derived) (type : RustType) : ComponentImpl where
  beanOrigin := (components type).beanOrigin
  isPrimary := (components type).isPrimary
  qualifier := (components type).qualifier
  dependencies := (components type).dependencies
  optionalDependencies := (components type).optionalDependencies
  provides := type :: (components type).provided.map .arc
  build := (components type).build
  registerBindings bean := (components type).provided.forM fun t =>
    .send (.registerAsComponent type t bean) fun reply => .done (reply.map fun _ => ())
  postConstruct := (components type).postConstruct

/-- The order in which a sweep that no constructor fails builds, and what it leaves. -/
def turn (p : Progress) : List ComponentDef → Progress × List ComponentDef × List ComponentDef
  | [] => (p, [], [])
  | d :: ds =>
    if p.ready d then
      let (p, order, rest) := turn (p.provide d) ds
      (p, d :: order, rest)
    else
      let (p, order, rest) := turn p ds
      (p, order, d :: rest)

/-- The same for the sweeps up to the first that builds nothing. -/
@[semireducible] def turns (p : Progress) (remaining : List ComponentDef) :
    Progress × List ComponentDef × List ComponentDef :=
  match turn p remaining with
  | (p, order, rest) =>
    if _h : rest.length < remaining.length then
      let (p, order', rest) := turns p rest
      (p, order ++ order', rest)
    else (p, order, rest)
termination_by remaining.length

variable (impls : RustType → ComponentImpl)

/-- The constructor returns a bean. -/
def Constructs (d : ComponentDef) (ctx : Container) : Prop :=
  ∃ bean, ((impls d.typeName).build.exec look) ctx = .ok (.ok bean, ctx)

/-- Built one after another, all constructors return a bean, and all bindings and hooks succeed but
for those of the last. -/
def Completes : List ComponentDef → Container → Prop
  | [], _ => True
  | d :: ds, ctx => Constructs impls d ctx ∧ (ds ≠ [] →
    ∃ ctx', runBuild impls (Eff.stop .unfinished) d ctx = .ok (.ok (), ctx') ∧ Completes ds ctx')

def start (ctx : Container) : Progress where
  available t := decide (t ∈ ctx.instances)
  pendingProviders := providers ctx.pending

/-- No component that the sweeps leave has an unmet hard dependency. -/
def HardMet (ctx : Container) : Prop :=
  ∀ d ∈ (turns ctx.start ctx.pending).2.2, ∀ t ∈ d.deps,
    (turns ctx.start ctx.pending).1.available t = true

/-- What is queued can all be built: no hard dependency is left unmet, and no constructor fails. -/
def Buildable (ctx : Container) : Prop :=
  HardMet ctx ∧
    Completes impls ((turns ctx.start ctx.pending).2.1 ++ (turns ctx.start ctx.pending).2.2)
      { ctx with pending := [] }

/-- No registered component is forgotten, and none is built twice. -/
def Kept (ctx : Container) : Prop := ctx.registered.Perm (ctx.built ++ ctx.pending)

theorem turn_perm (p : Progress) (ds : List ComponentDef) :
    ds.Perm ((turn p ds).2.1 ++ (turn p ds).2.2) := by
  induction ds generalizing p with
  | nil => exact List.Perm.refl _
  | cons d ds ih =>
    unfold turn
    split
    next => exact (ih _).cons d
    next => exact ((ih p).cons d).trans List.perm_middle.symm

theorem turns_eq (p : Progress) (remaining : List ComponentDef) :
    turns p remaining =
      if (turn p remaining).2.2.length < remaining.length then
        ((turns (turn p remaining).1 (turn p remaining).2.2).1,
          (turn p remaining).2.1 ++ (turns (turn p remaining).1 (turn p remaining).2.2).2.1,
          (turns (turn p remaining).1 (turn p remaining).2.2).2.2)
      else turn p remaining := by
  rw [turns]
  split
  next p' order rest hturn =>
    rw [hturn]
    rfl

theorem turns_perm (p : Progress) (remaining : List ComponentDef) :
    remaining.Perm ((turns p remaining).2.1 ++ (turns p remaining).2.2) := by
  induction hl : remaining.length using Nat.strongRecOn generalizing p remaining with
  | _ l ih =>
    have hturn := turn_perm p remaining
    rw [turns_eq]
    split
    next hlt =>
      have hrest := ih _ (by omega) (turn p remaining).1 (turn p remaining).2.2 rfl
      rw [List.append_assoc]
      exact hturn.trans (hrest.append_left _)
    next => exact hturn

section Sweeps

variable {impls : RustType → ComponentImpl} {refresh : Call Unit}

/-- A sweep runs the closures of its turn in order. -/
theorem sweep_eq (p : Progress) (ds : List ComponentDef) :
    sweep impls refresh p ds = do
      (turn p ds).2.1.forM (runBuild impls refresh)
      return ((turn p ds).1, (turn p ds).2.2) := by
  induction ds generalizing p with
  | nil => rfl
  | cons d ds ih =>
    unfold sweep turn
    split
    next =>
      rw [ih]
      simp only [List.forM_eq_forM, List.forM_cons, bind_assoc]
    next =>
      rw [ih]
      simp only [bind_assoc, pure_bind]

theorem sweeps_eq (p : Progress) (remaining : List ComponentDef) :
    sweeps impls refresh p remaining = do
      (turns p remaining).2.1.forM (runBuild impls refresh)
      return ((turns p remaining).1, (turns p remaining).2.2) := by
  induction hl : remaining.length using Nat.strongRecOn generalizing p remaining with
  | _ l ih =>
    rw [sweeps, turns_eq, sweep_eq]
    simp only [bind_assoc, pure_bind]
    split
    next hlt =>
      rw [ih _ (by omega) _ _ rfl]
      simp only [List.forM_eq_forM, List.forM_append, bind_assoc]
    next => rfl

end Sweeps

theorem finish_met {p : Progress} {batch : RustType → Bool} {rest : List ComponentDef}
    (h : ∀ d ∈ rest, ∀ t ∈ d.deps, p.available t = true) (impls : RustType → ComponentImpl)
    (refresh : Call Unit) :
    finish impls refresh batch p rest = rest.forM (runBuild impls refresh) := by
  have hmissing : missing p batch rest = none := by
    refine List.find?_eq_none.mpr fun d hd hany => ?_
    obtain ⟨t, ht, hn⟩ := List.any_eq_true.mp hany
    simp [h d hd t ht] at hn
  have hblocked : blocked p rest = [] := by
    refine List.filter_eq_nil_iff.mpr fun d hd hany => ?_
    obtain ⟨t, ht, hn⟩ := List.any_eq_true.mp hany
    simp [h d hd t ht] at hn
  unfold finish
  rw [hmissing, hblocked]
  rfl

theorem finish_unmet {p : Progress} {batch : RustType → Bool} {rest : List ComponentDef}
    (h : ¬ ∀ d ∈ rest, ∀ t ∈ d.deps, p.available t = true) :
    ∃ e, ∀ (impls : RustType → ComponentImpl) (refresh : Call Unit),
      finish impls refresh batch p rest = Eff.throw e := by
  unfold finish
  cases hm : missing p batch rest with
  | some d => exact ⟨_, fun _ _ => rfl⟩
  | none =>
    have hblocked : blocked p rest ≠ [] := by
      intro hnil
      refine h fun d hd t ht => ?_
      have hd' := List.filter_eq_nil_iff.mp hnil d hd
      by_contra hn
      exact hd' (List.any_eq_true.mpr ⟨t, ht, by simpa using hn⟩)
    exact ⟨_, fun _ _ => if_pos hblocked⟩

/-- Code that only reads leaves a valid container as it is. -/
theorem exec_look {α : Type} (x : Reader α) {ctx : Container} (hv : ctx.Valid) :
    ∃ r, x.exec look ctx = .ok (r, ctx) := by
  induction x with
  | done result => exact ⟨result, rfl⟩
  | send lookup next ih =>
    obtain ⟨reply, hreply⟩ := hv.answered lookup
    obtain ⟨r, hr⟩ := ih reply
    have hlook : look lookup ctx = .ok (reply, ctx) := by
      show (ctx.answer lookup).map _ = _
      rw [hreply]
      rfl
    exact ⟨r, (Eff.bind_ok (Eff.attempt_eq hlook)).trans hr⟩

section Derived

variable (components : RustType → Derived)

/-- The bindings of a component are published, and the queue is left alone. -/
theorem bindings_run (type : RustType) (bean : Bean RustType) (traits : List RustType)
    {ctx : Container} (hv : ctx.Valid) :
    ∃ ctx', (∀ refresh, (traits.forM fun t =>
        (Script.send (.registerAsComponent type t bean) fun reply =>
          .done (reply.map fun _ => ()) : Code Unit)).exec
        (serve (Derived.impl components) refresh) ctx = .ok (.ok (), ctx')) ∧
      ctx'.Valid ∧ ctx'.pending = ctx.pending ∧ ctx'.registered = ctx.registered ∧
      ctx'.built = ctx.built := by
  induction traits generalizing ctx with
  | nil => exact ⟨ctx, fun _ => rfl, hv, rfl, rfl, rfl⟩
  | cons t traits ih =>
    let entry := componentEntry (Derived.impl components) type (.arc t)
    have hfile : (ctx.file entry ⟨.arc t, bean⟩).Valid := hv.file rfl
    obtain ⟨ctx', hrun, hv', hp, hr, hb⟩ := ih hfile
    refine ⟨ctx', fun refresh => ?_, hv', hp, hr, hb⟩
    have hserve : serve (Derived.impl components) refresh (.registerAsComponent type t bean) ctx =
        .ok (.ok [], ctx.file entry ⟨.arc t, bean⟩) := by
      have hregister : registerWithEntry entry ⟨.arc t, bean⟩ ctx =
          .ok (.ok (), ctx.file entry ⟨.arc t, bean⟩) := registerWithEntry_ok ctx rfl
      exact Eff.bind_ok hregister
    exact (Eff.bind_ok (Eff.attempt_eq hserve)).trans (hrun refresh)

/-- What the closure of a component does: it stops at the constructor's error, or builds. -/
theorem runBuild_spec (d : ComponentDef) {ctx : Container} (hv : ctx.Valid) :
    ∃ r ctx', (∀ refresh, runBuild (Derived.impl components) refresh d ctx = .ok (r, ctx')) ∧
      ctx'.Valid ∧ ctx'.pending = ctx.pending ∧ ctx'.registered = ctx.registered ∧
      ((Constructs (Derived.impl components) d ctx ∧ ctx'.built = ctx.built ++ [d]) ∨
        ¬ Constructs (Derived.impl components) d ctx ∧ ctx'.built = ctx.built ∧
          r ≠ .ok ()) := by
  obtain ⟨made, hmade⟩ := exec_look (Derived.impl components d.typeName).build hv
  cases made with
  | error e =>
    refine ⟨.error e, ctx, fun refresh => Eff.bind_error hmade, hv, rfl, rfl, .inr ⟨?_, rfl, ?_⟩⟩
    · rintro ⟨bean, hbean⟩
      rw [hmade] at hbean
      cases hbean
    · intro h
      cases h
  | ok bean =>
    let entry := componentEntry (Derived.impl components) d.typeName d.typeName
    have hfile : Valid (ctx.file entry ⟨d.typeName, bean⟩) := hv.file rfl
    let filed := ctx.file entry ⟨d.typeName, bean⟩
    have hlogged : Valid { filed with built := filed.built ++ [d] } := hfile
    obtain ⟨ctx', hbind, hv', hp, hr, hb⟩ :=
      bindings_run components d.typeName bean (components d.typeName).provided hlogged
    obtain ⟨hook, hhook⟩ := exec_look ((Derived.impl components d.typeName).postConstruct bean) hv'
    refine ⟨hook, ctx', fun refresh => ?_, hv', hp, hr, .inl ⟨⟨bean, hmade⟩, hb⟩⟩
    have hregister : registerWithEntry entry ⟨d.typeName, bean⟩ ctx = .ok (.ok (), filed) :=
      registerWithEntry_ok ctx rfl
    refine (Eff.bind_ok hmade).trans ((Eff.bind_ok hregister).trans ?_)
    refine (Eff.bind_ok (a := ()) rfl).trans ?_
    exact (Eff.bind_ok (hbind refresh)).trans hhook

/-- Closures run one after another build up to the first that fails. -/
theorem runBuilds_spec (ds : List ComponentDef) {ctx : Container} (hv : ctx.Valid) :
    ∃ r ctx' done left, ds = done ++ left ∧
      (∀ refresh, ds.forM (runBuild (Derived.impl components) refresh) ctx = .ok (r, ctx')) ∧
      ctx'.Valid ∧ ctx'.pending = ctx.pending ∧ ctx'.registered = ctx.registered ∧
      ctx'.built = ctx.built ++ done ∧
      (left = [] ↔ Completes (Derived.impl components) ds ctx) ∧ (r = .ok () → left = []) := by
  induction ds generalizing ctx with
  | nil =>
    refine ⟨.ok (), ctx, [], [], rfl, fun _ => rfl, hv, rfl, rfl, by simp, ?_, fun _ => rfl⟩
    exact ⟨fun _ => trivial, fun _ => rfl⟩
  | cons d ds ih =>
    obtain ⟨r, ctx₁, hrun, hv₁, hp₁, hr₁, hbuilt⟩ := runBuild_spec components d hv
    rcases hbuilt with ⟨hmade, hb₁⟩ | ⟨hmade, hb₁, hne⟩
    · cases r with
      | ok _ =>
        obtain ⟨r, ctx', done, left, hds, hall, hv', hp, hr, hb, hcomplete, hok⟩ := ih hv₁
        refine ⟨r, ctx', d :: done, left, by rw [hds]; rfl, fun refresh => ?_, hv',
          hp.trans hp₁, hr.trans hr₁, ?_, ?_, hok⟩
        · exact (Eff.bind_ok (hrun refresh)).trans (hall refresh)
        · rw [hb, hb₁, List.append_assoc]
          rfl
        · rw [hcomplete]
          constructor
          · intro h
            exact ⟨hmade, fun _ => ⟨ctx₁, hrun _, h⟩⟩
          · rintro ⟨_, h⟩
            by_cases hnil : ds = []
            · rw [hnil]
              trivial
            · obtain ⟨ctx₂, hrun₂, h₂⟩ := h hnil
              rw [hrun] at hrun₂
              cases hrun₂
              exact h₂
      | error e =>
        refine ⟨.error e, ctx₁, [d], ds, rfl, fun refresh => Eff.bind_error (hrun refresh), hv₁,
          hp₁, hr₁, hb₁, ?_, fun h => (nomatch h)⟩
        constructor
        · intro hnil
          exact ⟨hmade, fun h => absurd hnil h⟩
        · rintro ⟨_, h⟩
          by_contra hnil
          obtain ⟨ctx₂, hrun₂, _⟩ := h hnil
          rw [hrun] at hrun₂
          cases hrun₂
    · cases r with
      | ok _ => exact absurd rfl hne
      | error e =>
        refine ⟨.error e, ctx₁, [], d :: ds, rfl, fun refresh => Eff.bind_error (hrun refresh),
          hv₁, hp₁, hr₁, by rw [hb₁, List.append_nil], ?_, fun h => (nomatch h)⟩
        constructor
        · intro h
          cases h
        · rintro ⟨h, _⟩
          exact absurd h hmade

/-- A pass takes the queue out, and builds all of it exactly where all of it can be built. -/
theorem pass_spec {ctx : Container} (hv : ctx.Valid) :
    ∃ r ctx' done, (∀ refresh, pass (Derived.impl components) refresh ctx = .ok (r, ctx')) ∧
      ctx'.Valid ∧ ctx'.pending = [] ∧ ctx'.registered = ctx.registered ∧
      ctx'.built = ctx.built ++ done ∧
      (ctx.pending.Perm done ↔ Buildable (Derived.impl components) ctx) ∧
      (r = .ok () → Buildable (Derived.impl components) ctx) := by
  have htaken : Valid { ctx with pending := [] } := hv
  have hperm := turns_perm ctx.start ctx.pending
  have hpass : ∀ refresh, pass (Derived.impl components) refresh ctx =
      (do
        (turns ctx.start ctx.pending).2.1.forM (runBuild (Derived.impl components) refresh)
        finish (Derived.impl components) refresh (fun t => 0 < providers ctx.pending t)
          (turns ctx.start ctx.pending).1 (turns ctx.start ctx.pending).2.2 : Call Unit)
        { ctx with pending := [] } := by
    intro refresh
    show (sweeps (Derived.impl components) refresh ctx.start ctx.pending >>= _)
      { ctx with pending := [] } = _
    rw [sweeps_eq]
    simp only [bind_assoc, pure_bind]
  generalize hp : (turns ctx.start ctx.pending).1 = p at hpass
  generalize horder : (turns ctx.start ctx.pending).2.1 = order at hpass hperm
  generalize hrest : (turns ctx.start ctx.pending).2.2 = rest at hpass hperm
  have hlength : ctx.pending.length = order.length + rest.length := by
    rw [hperm.length_eq, List.length_append]
  by_cases hmet : ∀ d ∈ rest, ∀ t ∈ d.deps, p.available t = true
  · obtain ⟨r, ctx', done, left, hds, hrun, hv', hq, hr, hb, hcomplete, hok⟩ :=
      runBuilds_spec components (order ++ rest) htaken
    have hbuildable : Buildable (Derived.impl components) ctx ↔
        Completes (Derived.impl components) (order ++ rest) { ctx with pending := [] } := by
      unfold Buildable HardMet
      rw [hp, horder, hrest]
      exact and_iff_right hmet
    refine ⟨r, ctx', done, fun refresh => ?_, hv', hq, hr, hb, ?_, fun h => ?_⟩
    · rw [hpass, finish_met hmet, ← hrun refresh]
      simp only [List.forM_eq_forM, List.forM_append]
    · rw [hbuildable, ← hcomplete]
      have hlen := congrArg List.length hds
      simp only [List.length_append] at hlen
      constructor
      · intro h
        have hdone := h.length_eq
        exact List.eq_nil_of_length_eq_zero (by omega)
      · intro h
        rw [h, List.append_nil] at hds
        rw [← hds]
        exact hperm
    · exact hbuildable.mpr (hcomplete.mp (hok h))
  · obtain ⟨r, ctx', done, left, hds, hrun, hv', hq, hr, hb, _, _⟩ :=
      runBuilds_spec components order htaken
    obtain ⟨e, hfinish⟩ := finish_unmet hmet
    have hnot : ¬ Buildable (Derived.impl components) ctx := by
      rintro ⟨h, _⟩
      unfold HardMet at h
      rw [hp, hrest] at h
      exact hmet h
    have hne : rest ≠ [] := by
      rintro rfl
      exact hmet (by simp)
    have hshort : ¬ ctx.pending.Perm done := by
      intro h
      have hdone := h.length_eq
      have hlen := congrArg List.length hds
      have hpos := List.length_pos_iff.mpr hne
      simp only [List.length_append] at hlen
      omega
    have hfail : ∃ e, ∀ refresh,
        pass (Derived.impl components) refresh ctx = .ok (.error e, ctx') := by
      cases r with
      | error e' =>
        exact ⟨e', fun refresh => (hpass refresh).trans (Eff.bind_error (hrun refresh))⟩
      | ok _ =>
        refine ⟨e, fun refresh => (hpass refresh).trans ((Eff.bind_ok (hrun refresh)).trans ?_)⟩
        rw [hfinish]
        rfl
    obtain ⟨e', hfail⟩ := hfail
    exact ⟨.error e', ctx', done, hfail, hv', hq, hr, hb, iff_of_false hshort hnot,
      fun h => (nomatch h)⟩

/-- What a refresh that returns has done. -/
theorem refresh_spec {fuel : Nat} {ctx ctx' : Container} {r : Except (DiError RustType) Unit}
    (hv : ctx.Valid)
    (h : Container.refresh (Derived.impl components) fuel ctx = .ok (r, ctx')) :
    ∃ done, ctx'.pending = [] ∧ ctx'.registered = ctx.registered ∧
      ctx'.built = ctx.built ++ done ∧
      (ctx.pending.Perm done ↔ Buildable (Derived.impl components) ctx) ∧
      (r = .ok () → Buildable (Derived.impl components) ctx) := by
  cases fuel with
  | zero => cases h
  | succ fuel =>
    have hnil : ∀ (fuel : Nat) (ctx : Container), ctx.pending = [] →
        Container.refresh (Derived.impl components) (fuel + 1) ctx = .ok (.ok (), ctx) := by
      intro fuel ctx hq
      unfold Container.refresh
      refine (Eff.bind_ok (a := ctx) rfl).trans ?_
      rw [hq]
      rfl
    by_cases hq : ctx.pending = []
    · rw [hnil fuel ctx hq] at h
      cases h
      have hbuildable : Buildable (Derived.impl components) ctx := by
        unfold Buildable HardMet
        rw [hq, turns_eq]
        exact ⟨by simp [turn], trivial⟩
      refine ⟨[], hq, rfl, by simp, ?_, fun _ => hbuildable⟩
      rw [hq]
      exact iff_of_true (List.Perm.refl _) hbuildable
    · obtain ⟨r₁, ctx₁, done, hpass, _, hq₁, hr₁, hb₁, hdone, hok⟩ := pass_spec components hv
      have hstep : Container.refresh (Derived.impl components) (fuel + 1) ctx =
          (pass (Derived.impl components) (Container.refresh (Derived.impl components) fuel) >>=
            fun _ => Container.refresh (Derived.impl components) fuel) ctx := by
        refine (Eff.bind_ok (a := ctx) rfl).trans ?_
        rw [if_neg (by simpa using hq)]
      rw [hstep] at h
      cases r₁ with
      | error e =>
        rw [Eff.bind_error (hpass _)] at h
        cases h
        exact ⟨done, hq₁, hr₁, hb₁, hdone, fun h => (nomatch h)⟩
      | ok _ =>
        rw [Eff.bind_ok (hpass _)] at h
        cases fuel with
        | zero => cases h
        | succ fuel =>
          rw [hnil fuel ctx₁ hq₁] at h
          cases h
          exact ⟨done, hq₁, hr₁, hb₁, hdone, fun _ => hok rfl⟩

end Derived

section Kept

variable {impls : RustType → ComponentImpl}

theorem registerWithEntry_kept (entry : BeanEntry RustType) (inst : BeanInstance RustType) :
    Eff.Keeps (fun ctx => ctx.Valid ∧ ctx.Kept) (registerWithEntry entry inst) := by
  unfold registerWithEntry
  split
  next => exact Eff.Keeps.throw _
  next hi => exact Eff.Keeps.modify fun ctx h => ⟨h.1.file (not_not.mp hi), h.2⟩

theorem look_kept (lookup : Lookup) :
    Eff.Keeps (fun ctx => ctx.Valid ∧ ctx.Kept) (look lookup) :=
  Eff.Keeps.reads fun _ h => h.1.answered lookup

/-- A call other than `refresh` forgets no component. -/
theorem serve_kept {refresh : Call Unit} {m : ContextMethod} (hm : m ≠ .refresh) :
    Eff.Keeps (fun ctx => ctx.Valid ∧ ctx.Kept) (serve impls refresh m) := by
  have hregister : ∀ entry inst, Eff.Keeps (fun ctx => ctx.Valid ∧ ctx.Kept)
      ((fun _ => []) <$> registerWithEntry entry inst : Call (List (Bean RustType))) :=
    fun entry inst => Eff.Keeps.bind (registerWithEntry_kept entry inst) fun _ => Eff.Keeps.pure _
  cases m with
  | look lookup => exact look_kept lookup
  | registerComponent type =>
    refine Eff.Keeps.bind (Eff.Keeps.modify fun ctx h => ⟨h.1, ?_⟩) fun _ => Eff.Keeps.pure _
    show (ctx.registered ++ _).Perm (ctx.built ++ (ctx.pending ++ _))
    rw [← List.append_assoc]
    exact h.2.append_right _
  | build type =>
    refine Eff.Keeps.bind ?_ fun _ => Eff.Keeps.pure _
    refine Eff.Keeps.bind (Script.exec_keeps look_kept _) fun inst => ?_
    exact Eff.Keeps.bind (registerWithEntry_kept _ _) fun _ => Eff.Keeps.pure inst
  | refresh => exact absurd rfl hm
  | _ => exact hregister _ _

theorem request_refresh {fuel : Nat} {reply : Reply} {ctx ctx' : Container}
    (h : request impls fuel .refresh ctx = .ok (reply, ctx')) :
    ∃ r, Container.refresh impls fuel ctx = .ok (r, ctx') ∧
      ∀ beans, reply = .ok beans → r = .ok () := by
  cases hr : Container.refresh impls fuel ctx with
  | error why =>
    have hstop : request impls fuel .refresh ctx = .error why := by
      show Eff.bind (Container.refresh impls fuel) _ ctx = _
      unfold Eff.bind
      rw [hr]
    rw [hstop] at h
    cases h
  | ok p =>
    obtain ⟨r, ctx₁⟩ := p
    cases r with
    | error e =>
      have he : request impls fuel .refresh ctx = .ok (.error e, ctx₁) := Eff.bind_error hr
      rw [he] at h
      cases h
      exact ⟨_, rfl, fun _ h => (nomatch h)⟩
    | ok _ =>
      have hok : request impls fuel .refresh ctx = .ok (.ok [], ctx₁) := Eff.bind_ok hr
      rw [hok] at h
      cases h
      exact ⟨_, rfl, fun _ _ => rfl⟩

end Kept

/-- After calls that may fail, no component that was registered and not built is forgotten, and a
refresh that returns `Ok` leaves every component built, each once. -/
def LosesNothing (impls : RustType → ComponentImpl) : Prop :=
  ∀ ctx, (calls impls).Reachable ctx → ctx.Kept ∧
    ∀ fuel beans ctx', request impls fuel .refresh ctx = .ok (.ok beans, ctx') →
      ctx'.registered.Perm ctx'.built

theorem kept_step (components : RustType → Derived) {ctx ctx' : Container} {fuel : Nat}
    {reply : Reply} (hv : ctx.Valid) (hk : ctx.Kept)
    (h : request (Derived.impl components) fuel .refresh ctx = .ok (reply, ctx')) :
    (ctx'.Kept ↔ Buildable (Derived.impl components) ctx) ∧
      ∀ beans, reply = .ok beans → ctx'.registered.Perm ctx'.built := by
  obtain ⟨r, hrefresh, hreply⟩ := request_refresh h
  obtain ⟨done, hq, hr, hb, hdone, hok⟩ := refresh_spec components hv hrefresh
  have hkept : ctx'.Kept ↔ Buildable (Derived.impl components) ctx := by
    rw [← hdone]
    unfold Kept at hk ⊢
    rw [hq, hr, hb, List.append_nil]
    exact ⟨fun h => (List.perm_append_left_iff _).mp (hk.symm.trans h),
      fun h => hk.trans (h.append_left _)⟩
  refine ⟨hkept, fun beans hbeans => ?_⟩
  have hall := hkept.mpr (hok (hreply beans hbeans))
  unfold Kept at hall
  rwa [hq, List.append_nil] at hall

/-- Where every refresh so far found all that was queued buildable, nothing is forgotten; and the
next refresh forgets nothing exactly if it finds the same. -/
theorem kept_of_buildable (components : RustType → Derived) (ctx : Container)
    (h : (calls (Derived.impl components)).Reach
      (fun ctx m => m = .refresh → Buildable (Derived.impl components) ctx) ctx) :
    ctx.Kept ∧ ∀ fuel reply ctx',
      request (Derived.impl components) fuel .refresh ctx = .ok (reply, ctx') →
        (ctx'.Kept ↔ Buildable (Derived.impl components) ctx) ∧
        ∀ beans, reply = .ok beans → ctx'.registered.Perm ctx'.built := by
  have hinv : ctx.Valid ∧ ctx.Kept := by
    refine @System.Reach.invariant _ _ _ _ (fun ctx => ctx.Valid ∧ ctx.Kept) ?_ ?_ _ h
    · rintro _ rfl
      exact ⟨valid_of_reachable (.start rfl : (calls (Derived.impl components)).Reachable {}),
        List.Perm.refl _⟩
    · rintro ctx m ctx' ⟨hv, hk⟩ hok ⟨fuel, reply, hstep⟩
      by_cases hm : m = .refresh
      · subst hm
        have hv' := request_keeps (Derived.impl components) fuel .refresh ctx hv
        unfold Eff.Ends at hv'
        rw [hstep] at hv'
        exact ⟨hv', (kept_step components hv hk hstep).1.mpr (hok rfl)⟩
      · have hkeeps : (request (Derived.impl components) fuel m).Ends
            (fun _ ctx => ctx.Valid ∧ ctx.Kept) ctx := serve_kept hm ctx ⟨hv, hk⟩
        unfold Eff.Ends at hkeeps
        rw [hstep] at hkeeps
        exact hkeeps
  exact ⟨hinv.2, fun fuel reply ctx' hstep => kept_step components hinv.1 hinv.2 hstep⟩

def clock : RustType := .named ['C', 'l', 'o', 'c', 'k']

def cache : RustType := .named ['C', 'a', 'c', 'h', 'e']

/-- `struct Cache { #[inject] clock: Arc<Clock> }`. -/
def clocked (_ : RustType) : Derived where
  dependencies := [clock]
  build := .send (.get clock) fun reply => .done (reply.map fun _ => .component cache)

def cacheDef : ComponentDef := ⟨cache, [clock], [], [cache]⟩

def clocks : Table RustType (List (BeanEntry RustType × BeanInstance RustType)) :=
  AList.insert clock [(⟨clock, .user, false, none⟩, ⟨clock, .given 0⟩)] ∅

/-- The container once the clock is there and the cache has been built. -/
def cached : Container where
  instances := AList.insert cache
    [(⟨cache, .user, false, none⟩, ⟨cache, .component cache⟩)] clocks
  registered := [cacheDef]
  built := [cacheDef]

theorem kept_of_buildable_cached : cached.Kept := by
  have hclock : (calls (Derived.impl clocked)).step {} (.registerInstance clock (.given 0))
      { instances := clocks } := ⟨0, .ok [], rfl⟩
  have hqueue : (calls (Derived.impl clocked)).step { instances := clocks }
      (.registerComponent cache)
      { instances := clocks, pending := [cacheDef], registered := [cacheDef] } :=
    ⟨0, .ok [], rfl⟩
  have hrefresh : (calls (Derived.impl clocked)).step
      { instances := clocks, pending := [cacheDef], registered := [cacheDef] } .refresh cached :=
    ⟨2, .ok [], rfl⟩
  have hbuildable : Buildable (Derived.impl clocked)
      { instances := clocks, pending := [cacheDef], registered := [cacheDef] } := by
    refine ⟨fun d hd => (nomatch hd), ?_⟩
    exact ⟨⟨.component cache, rfl⟩, fun hne => absurd rfl hne⟩
  refine (kept_of_buildable clocked cached ?_).1
  refine .step (.step (.step (.start rfl) ?_ hclock) ?_ hqueue) (fun _ => hbuildable) hrefresh
  · intro h
    cases h
  · intro h
    cases h

/-- The component whose refresh came before its dependency is never built. -/
theorem not_losesNothing : ¬ ∀ components, LosesNothing (Derived.impl components) := by
  intro h
  have hqueue : (calls (Derived.impl clocked)).step {} (.registerComponent cache)
      { pending := [cacheDef], registered := [cacheDef] } := ⟨0, .ok [], rfl⟩
  have hfail : (calls (Derived.impl clocked)).step
      { pending := [cacheDef], registered := [cacheDef] } .refresh { registered := [cacheDef] } :=
    ⟨1, .error (.missingDependency cache), rfl⟩
  have hclock : (calls (Derived.impl clocked)).step { registered := [cacheDef] }
      (.registerInstance clock (.given 0)) { instances := clocks, registered := [cacheDef] } :=
    ⟨0, .ok [], rfl⟩
  have hreach : (calls (Derived.impl clocked)).Reachable
      { instances := clocks, registered := [cacheDef] } :=
    .step (.step (.step (.start rfl) trivial hqueue) trivial hfail) trivial hclock
  have hperm := (h clocked _ hreach).2 1 [] { instances := clocks, registered := [cacheDef] } rfl
  exact absurd hperm.length_eq (by decide)

end Container

end Kernway
