import Kernway.DiSchedule
import Mathlib.Data.List.Induction

namespace Kernway

variable {Ty : Type}

/-- Of beans registered one after another, those that the override rule leaves. -/
def settle (xs : List (BeanEntry Ty × BeanInstance Ty)) : List (BeanEntry Ty × BeanInstance Ty) :=
  if xs.any fun x => !x.1.isDefault then xs.filter fun x => !x.1.isDefault else xs

theorem settle_perm {xs ys : List (BeanEntry Ty × BeanInstance Ty)} (h : xs.Perm ys) :
    (settle xs).Perm (settle ys) := by
  have hany : (xs.any fun x => !x.1.isDefault) = ys.any fun x => !x.1.isDefault :=
    h.any_eq
  unfold settle
  rw [hany]
  split
  · exact h.filter _
  · exact h

theorem settle_uniform (b : Beans Ty) : settle b.list = b.list := by
  unfold settle
  rcases b.uniform with h | h
  · rw [if_neg]
    simpa using h
  · split
    · exact List.filter_eq_self.mpr (by simpa using h)
    · rfl

theorem settle_append (xs ys : List (BeanEntry Ty × BeanInstance Ty)) :
    settle (settle xs ++ ys) = settle (xs ++ ys) := by
  unfold settle
  by_cases hx : (xs.any fun x => !x.1.isDefault) = true
  · have hf : ((xs.filter fun x => !x.1.isDefault).any fun x => !x.1.isDefault) = true := by
      simpa using hx
    simp only [hx, if_true, List.any_append, hf, Bool.true_or, List.filter_append,
      List.filter_filter, Bool.and_self]
  · simp only [hx, Bool.false_eq_true, if_false]

theorem Beans.place_list (b : Beans Ty) (e : BeanEntry Ty) (i : BeanInstance Ty) :
    (b.place e i).list = settle (b.list ++ [(e, i)]) := by
  unfold Beans.place settle
  by_cases hd : e.isDefault = true
  · simp only [hd, dif_pos, List.any_append, List.any_cons, List.any_nil, Bool.not_true,
      Bool.or_false]
    split
    next hu =>
      obtain ⟨x, hx, hxd⟩ := List.any_eq_true.mp hu
      have hn := b.uniform.resolve_left fun hall => by simp [hall x hx] at hxd
      rw [List.filter_append, List.filter_cons_of_neg (by simp [hd]), List.filter_nil,
        List.append_nil, List.filter_eq_self.mpr (by simpa using hn)]
    next => rfl
  · simp [hd, List.filter_append]

variable [DecidableEq Ty]

def Component.entriesFor (t : Ty) (c : Component Ty) : List (BeanEntry Ty × BeanInstance Ty) :=
  (c.provides.filter fun p => p = t).map fun p => (c.entry p, c.inst p)

/-- The context with a component's bean registered for all its types. -/
def AppContext.withComponent (ctx : AppContext Ty) (c : Component Ty) : AppContext Ty :=
  ⟨fun t => (c.entriesFor t).foldl (fun b x => b.place x.1 x.2) (ctx.instances t)⟩

/-- The context after components are built one after another. -/
def AppContext.after (ctx : AppContext Ty) (built : List (Component Ty)) : AppContext Ty :=
  built.foldl AppContext.withComponent ctx

omit [DecidableEq Ty] in
theorem place_foldl_list (xs : List (BeanEntry Ty × BeanInstance Ty)) (b : Beans Ty) :
    (xs.foldl (fun b x => b.place x.1 x.2) b).list = settle (b.list ++ xs) := by
  induction xs generalizing b with
  | nil => rw [List.foldl_nil, List.append_nil, settle_uniform]
  | cons x xs ih =>
    rw [List.foldl_cons, ih, Beans.place_list, settle_append, List.append_assoc]
    rfl

theorem AppContext.after_list (ctx : AppContext Ty) (built : List (Component Ty)) (t : Ty) :
    ((ctx.after built).instances t).list =
      settle ((ctx.instances t).list ++ built.flatMap (Component.entriesFor t)) := by
  induction built using List.reverseRecOn with
  | nil => simp [AppContext.after, settle_uniform]
  | append_singleton built c ih =>
    have hstep : ctx.after (built ++ [c]) = (ctx.after built).withComponent c := by
      simp [AppContext.after]
    rw [hstep, AppContext.withComponent, place_foldl_list, ih, settle_append, List.append_assoc,
      List.flatMap_append]
    simp

omit [DecidableEq Ty] in
/-- Lookups do not depend on the order in which beans were registered. -/
theorem AppContext.get_perm {ctx ctx' : AppContext Ty} {t : Ty}
    (h : (ctx.instances t).list.Perm (ctx'.instances t).list) : ctx.get t = ctx'.get t := by
  have honly : ∀ {xs ys : List (BeanEntry Ty × BeanInstance Ty)} (e e' : DiError Ty),
      xs.Perm ys → only xs e e' = only ys e e' := by
    intro xs ys e e' hp
    have hlen := hp.length_eq
    match xs, ys, hlen with
    | [], [], _ => rfl
    | [x], [y], _ => rw [List.perm_singleton.mp hp]
    | _ :: _ :: _, _ :: _ :: _, _ => rfl
  unfold AppContext.get
  generalize (ctx.instances t).list = xs, (ctx'.instances t).list = ys at h
  have hlen := h.length_eq
  match xs, ys, hlen with
  | [], [], _ => rfl
  | [x], [y], _ => rw [List.perm_singleton.mp h]
  | _ :: _ :: _, _ :: _ :: _, _ => exact honly _ _ (h.filter _)

theorem AppContext.get_after_perm (ctx : AppContext Ty) {built built' : List (Component Ty)}
    (h : built.Perm built') (t : Ty) : (ctx.after built).get t = (ctx.after built').get t := by
  refine AppContext.get_perm ?_
  rw [AppContext.after_list, AppContext.after_list]
  exact settle_perm (List.Perm.append_left _ (h.flatMap_right _))

def firstError {ε α : Type} (xs : List (Except ε α)) : Option ε :=
  xs.findSome? fun
    | .error e => some e
    | .ok _ => none

omit [DecidableEq Ty] in
theorem inject_eq_ok {ctx : AppContext Ty} {f : InjectField Ty} (h : f.kind ≠ .required) :
    ∃ v, ctx.inject f = .ok v := by
  unfold AppContext.inject
  split
  next hk => exact absurd hk h
  next => exact ⟨_, rfl⟩
  next => exact ⟨_, rfl⟩

omit [DecidableEq Ty] in
/-- A constructor fails with the error of its first unresolved required field. -/
theorem Component.construct_error (c : Component Ty) (ctx : AppContext Ty) :
    match firstError (c.hardView ctx) with
    | some e => c.construct ctx = .error e
    | none => ∃ fields, c.construct ctx = .ok fields := by
  unfold Component.construct Component.hardView
  induction c.fields with
  | nil => exact ⟨[], rfl⟩
  | cons f fs ih =>
    -- an injected field leaves the outcome to the fields after it
    have hrest : ∀ v, ctx.inject f = .ok v →
        match firstError ((fs.filter fun f => f.kind = .required).map ctx.resolve) with
        | some e => (f :: fs).mapM ctx.inject = .error e
        | none => ∃ fields, (f :: fs).mapM ctx.inject = .ok fields := by
      intro v hv
      rw [List.mapM_cons, hv]
      split at ih
      next e _ => simp only [ih, bind, Except.bind]
      next =>
        obtain ⟨vs, hvs⟩ := ih
        exact ⟨v :: vs, by simp only [hvs, bind, Except.bind, pure, Except.pure]⟩
    by_cases hk : f.kind = .required
    · rw [List.filter_cons_of_pos (by simpa using hk), List.map_cons]
      cases hr : ctx.resolve f with
      | error e =>
        have hi : ctx.inject f = .error e := by simp [AppContext.inject, hk, hr, Except.map]
        simp only [firstError, List.findSome?_cons, List.mapM_cons, hi, bind, Except.bind]
      | ok b => exact hrest (.required b) (by simp [AppContext.inject, hk, hr, Except.map])
    · rw [List.filter_cons_of_neg (by simpa using hk)]
      obtain ⟨v, hv⟩ := inject_eq_ok hk
      exact hrest v hv

theorem registerWithEntry_component (c : Component Ty) (ctx : AppContext Ty) (p : Ty) :
    ctx.registerWithEntry (c.entry p) (c.inst p) =
      .ok ⟨fun t => if t = p then (ctx.instances t).place (c.entry p) (c.inst p)
        else ctx.instances t⟩ :=
  if_neg (by simp [Component.entry, Component.inst])

theorem foldlM_registerWithEntry (c : Component Ty) (ps : List Ty) (ctx : AppContext Ty) :
    ps.foldlM (fun ctx p => ctx.registerWithEntry (c.entry p) (c.inst p)) ctx =
      .ok ⟨fun t => ((ps.filter fun p => p = t).map fun p => (c.entry p, c.inst p)).foldl
        (fun b x => b.place x.1 x.2) (ctx.instances t)⟩ := by
  induction ps generalizing ctx with
  | nil => rfl
  | cons p ps ih =>
    rw [List.foldlM_cons, registerWithEntry_component]
    simp only [bind, Except.bind, ih, Except.ok.injEq, AppContext.mk.injEq]
    funext t
    by_cases hp : p = t
    · subst hp
      simp
    · simp [hp, Ne.symm hp]

/-- A build fails as the constructor or the hook does; else it registers the bean. -/
theorem Component.build_eq (c : Component Ty) (ctx : AppContext Ty) :
    c.build ctx = (c.construct ctx).bind fun _ =>
      (c.postConstruct (ctx.withComponent c)).bind fun _ => .ok (ctx.withComponent c) := by
  have hall := foldlM_registerWithEntry c c.provides ctx
  rw [Component.provides, List.foldlM_cons] at hall
  unfold Component.build
  cases c.construct ctx with
  | error e => rfl
  | ok fields =>
    simp only [bind, Except.bind, pure, Except.pure] at hall ⊢
    split at hall
    next => simp at hall
    next ctx' hr =>
      simp only [hall]
      rfl

end Kernway
