import Kernway.Container
import Kernway.Runs

namespace Kernway

namespace Container

/-- What the list filed under a type may hold. -/
structure BeanList (type : RustType) (list : List (BeanEntry RustType × BeanInstance RustType)) :
    Prop where
  nonempty : list ≠ []
  uniform : (∀ x ∈ list, x.1.isDefault = true) ∨ ∀ x ∈ list, x.1.isDefault = false
  typed : ∀ x ∈ list, x.2.typeId = type

def Valid (ctx : Container) : Prop :=
  ∀ type list, ctx.instances.lookup type = some list → BeanList type list

/-- A bean joins the list of its type, absent so far or valid. -/
theorem BeanList.place {type : RustType}
    {list : List (BeanEntry RustType × BeanInstance RustType)} {entry : BeanEntry RustType}
    {inst : BeanInstance RustType} (h : list = [] ∨ BeanList type list)
    (hi : inst.typeId = type) : BeanList type (place list entry inst) := by
  have htyped : ∀ x ∈ list, x.2.typeId = type := by
    rcases h with rfl | h
    · simp
    · exact h.typed
  unfold Container.place
  split
  next hd =>
    split
    next hany =>
      refine h.resolve_left ?_
      rintro rfl
      simp at hany
    next hany =>
      have hall : ∀ x ∈ list, x.1.isDefault = true := by simpa using hany
      refine ⟨by simp, .inl ?_, ?_⟩
      · intro x hx
        rcases List.mem_append.mp hx with hx | hx
        · exact hall x hx
        · rw [List.mem_singleton.mp hx]
          exact hd
      · intro x hx
        rcases List.mem_append.mp hx with hx | hx
        · exact htyped x hx
        · rw [List.mem_singleton.mp hx]
          exact hi
  next hd =>
    have hn : entry.isDefault = false := by simpa using hd
    refine ⟨by simp, .inr ?_, ?_⟩
    · intro x hx
      rcases List.mem_append.mp hx with hx | hx
      · simpa using (List.mem_filter.mp hx).2
      · rw [List.mem_singleton.mp hx]
        exact hn
    · intro x hx
      rcases List.mem_append.mp hx with hx | hx
      · exact htyped x (List.mem_filter.mp hx).1
      · rw [List.mem_singleton.mp hx]
        exact hi

theorem expectDowncast_eq {type : RustType} {inst : BeanInstance RustType}
    (h : inst.typeId = type) : expectDowncast type inst = .ok (.ok inst.bean) := by
  unfold expectDowncast downcast
  rw [if_pos h]

theorem BeanList.getAll {type : RustType}
    {list : List (BeanEntry RustType × BeanInstance RustType)} (h : BeanList type list) :
    (list.filterMap fun x => downcast type x.2) = list.map fun x => x.2.bean := by
  have hsome : ∀ x ∈ list, downcast type x.2 = some x.2.bean := fun x hx => if_pos (h.typed x hx)
  rw [List.filterMap_congr hsome]
  exact congrFun List.filterMap_eq_map' list

/-- The context without its queue, each list with its uniformity. -/
def Represents (ctx : Container) (abs : AppContext RustType) : Prop :=
  ∀ type, (abs.instances type).list = (ctx.instances.lookup type).getD []

namespace Valid

variable {ctx : Container}

theorem represented (h : ctx.Valid) : ∃ abs, ctx.Represents abs := by
  have hbeans : ∀ type, ∃ beans : Beans RustType,
      beans.list = (ctx.instances.lookup type).getD [] := by
    intro type
    cases hl : ctx.instances.lookup type with
    | none => exact ⟨{}, rfl⟩
    | some list => exact ⟨⟨list, (h type list hl).uniform⟩, rfl⟩
  choose beans hbeans using hbeans
  exact ⟨⟨beans⟩, hbeans⟩

theorem get_eq (h : ctx.Valid) {abs : AppContext RustType} (hr : ctx.Represents abs)
    (type : RustType) : ctx.get type = .ok (abs.get type) := by
  have hlist := hr type
  unfold Container.get AppContext.get
  cases hl : ctx.instances.lookup type with
  | none =>
    rw [hl] at hlist
    rw [hlist]
    rfl
  | some list =>
    have hb := h type list hl
    rw [hl] at hlist
    rw [hlist]
    have htyped : ∀ x ∈ list.filter fun x => x.1.isPrimary, x.2.typeId = type :=
      fun x hx => hb.typed x (List.mem_filter.mp hx).1
    match list, hb.nonempty, hb.typed, htyped with
    | [x], _, ht, _ => exact expectDowncast_eq (ht x List.mem_cons_self)
    | x :: y :: rest, _, _, ht =>
      dsimp only [Option.getD_some]
      generalize (x :: y :: rest).filter (fun x => x.1.isPrimary) = primaries at ht
      match primaries, ht with
      | [], _ => rfl
      | [z], ht => exact expectDowncast_eq (ht z List.mem_cons_self)
      | _ :: _ :: _, _ => rfl

theorem getQualified_eq (h : ctx.Valid) {abs : AppContext RustType} (hr : ctx.Represents abs)
    (type : RustType) (qualifier : Text) :
    ctx.getQualified type qualifier = .ok (abs.getQualified type qualifier) := by
  have hlist := hr type
  unfold Container.getQualified AppContext.getQualified
  cases hl : ctx.instances.lookup type with
  | none =>
    rw [hl] at hlist
    rw [hlist]
    rfl
  | some list =>
    have hb := h type list hl
    rw [hl] at hlist
    rw [hlist]
    have htyped : ∀ x ∈ list.filter fun x => x.1.qualifier = some qualifier, x.2.typeId = type :=
      fun x hx => hb.typed x (List.mem_filter.mp hx).1
    dsimp only [Option.getD_some]
    generalize (list.filter fun x => decide (x.1.qualifier = some qualifier)) = found at htyped
    match found, htyped with
    | [], _ => rfl
    | [z], ht => exact expectDowncast_eq (ht z List.mem_cons_self)
    | _ :: _ :: _, _ => rfl

theorem getAll_eq (h : ctx.Valid) {abs : AppContext RustType} (hr : ctx.Represents abs)
    (type : RustType) : ctx.getAll type = abs.getAll type := by
  have hlist := hr type
  unfold Container.getAll AppContext.getAll
  cases hl : ctx.instances.lookup type with
  | none =>
    rw [hl] at hlist
    rw [hlist]
    rfl
  | some list =>
    rw [hl] at hlist
    rw [hlist]
    exact (h type list hl).getAll

/-- Every lookup is answered: no downcast panics. -/
theorem answered (h : ctx.Valid) (lookup : Lookup) : ∃ reply, ctx.answer lookup = .ok reply := by
  obtain ⟨abs, hr⟩ := h.represented
  cases lookup with
  | get type => exact ⟨_, by rw [answer, h.get_eq hr]; rfl⟩
  | getQualified type qualifier => exact ⟨_, by rw [answer, h.getQualified_eq hr]; rfl⟩
  | getAs type => exact ⟨_, by rw [answer, getAs, h.get_eq hr]; rfl⟩
  | getAll type => exact ⟨_, rfl⟩
  | getAllAs type => exact ⟨_, rfl⟩

end Valid

theorem look_keeps (lookup : Lookup) : Eff.Keeps Valid (look lookup) :=
  Eff.Keeps.reads fun _ h => h.answered lookup

theorem Valid.file {ctx : Container} (h : ctx.Valid) {entry : BeanEntry RustType}
    {inst : BeanInstance RustType} (hi : inst.typeId = entry.typeId) :
    (ctx.file entry inst).Valid := by
  intro type list hl
  unfold Container.file at hl
  rw [Table.lookup_insert_eq] at hl
  split at hl
  next ht =>
    cases hl
    rw [ht]
    refine BeanList.place ?_ hi
    cases hold : ctx.instances.lookup entry.typeId with
    | none => exact .inl rfl
    | some list => exact .inr (h _ _ hold)
  next => exact h type list hl

theorem registerWithEntry_keeps (entry : BeanEntry RustType) (inst : BeanInstance RustType) :
    Eff.Keeps Valid (registerWithEntry entry inst) := by
  unfold registerWithEntry
  split
  next => exact Eff.Keeps.throw _
  next hi => exact Eff.Keeps.modify fun ctx h => h.file (not_not.mp hi)

theorem registerWithEntry_ok (ctx : Container) {entry : BeanEntry RustType}
    {inst : BeanInstance RustType} (hi : inst.typeId = entry.typeId) :
    registerWithEntry entry inst ctx = .ok (.ok (), ctx.file entry inst) :=
  congrFun (if_neg (not_not.mpr hi)) ctx

theorem place_list (beans : Beans RustType) (entry : BeanEntry RustType)
    (inst : BeanInstance RustType) :
    (beans.place entry inst).list = place beans.list entry inst := by
  unfold Beans.place place
  by_cases hd : entry.isDefault = true
  · rw [dif_pos hd, if_pos hd]
    split <;> rfl
  · rw [dif_neg hd, if_neg hd]

/-- Registering a bean does to the lists what it does to the context that represents them. -/
theorem Represents.registerWithEntry {ctx : Container} {abs : AppContext RustType}
    (hr : ctx.Represents abs) (entry : BeanEntry RustType) (inst : BeanInstance RustType) :
    match abs.registerWithEntry entry inst with
    | .error e => Container.registerWithEntry entry inst ctx = .ok (.error e, ctx)
    | .ok abs' => ∃ ctx', Container.registerWithEntry entry inst ctx = .ok (.ok (), ctx') ∧
        ctx'.Represents abs' := by
  unfold AppContext.registerWithEntry Container.registerWithEntry
  by_cases hi : inst.typeId = entry.typeId
  · rw [if_neg (by simpa using hi), if_neg (by simpa using hi)]
    refine ⟨_, rfl, ?_⟩
    intro type
    unfold Container.file
    rw [Table.lookup_insert_eq]
    split
    next ht =>
      subst ht
      simp only [if_true, Option.getD_some, place_list, hr entry.typeId]
    next ht => simpa only [if_neg ht] using hr type
  · rw [if_pos hi, if_pos hi]
    rfl

section Calls

variable {impls : RustType → ComponentImpl} {refresh : Call Unit}

theorem map_keeps {α β : Type} {m : Call α} {g : α → β} (h : Eff.Keeps Valid m) :
    Eff.Keeps Valid (g <$> m) :=
  Eff.Keeps.bind h fun a => Eff.Keeps.pure (g a)

theorem build_keeps (type : RustType) : Eff.Keeps Valid (build impls type) := by
  unfold build
  refine Eff.Keeps.bind (Script.exec_keeps look_keeps _) fun inst => ?_
  exact Eff.Keeps.bind (registerWithEntry_keeps _ _) fun _ => Eff.Keeps.pure inst

theorem serve_keeps (hrefresh : Eff.Keeps Valid refresh) (r : ContextMethod) :
    Eff.Keeps Valid (serve impls refresh r) := by
  cases r with
  | look lookup => exact look_keeps lookup
  | registerComponent type => exact map_keeps (Eff.Keeps.modify fun _ h => h)
  | build type => exact map_keeps (build_keeps type)
  | refresh => exact map_keeps hrefresh
  | _ => exact map_keeps (registerWithEntry_keeps _ _)

theorem runBuild_keeps (hrefresh : Eff.Keeps Valid refresh) (d : ComponentDef) :
    Eff.Keeps Valid (runBuild impls refresh d) := by
  unfold runBuild
  refine Eff.Keeps.bind (Script.exec_keeps look_keeps _) fun inst => ?_
  refine Eff.Keeps.bind (registerWithEntry_keeps _ _) fun _ => ?_
  refine Eff.Keeps.bind (Eff.Keeps.modify fun _ h => h) fun _ => ?_
  refine Eff.Keeps.bind (Script.exec_keeps (serve_keeps hrefresh) _) fun _ => ?_
  exact Script.exec_keeps look_keeps _

theorem sweep_keeps (hrefresh : Eff.Keeps Valid refresh) (p : Progress)
    (defs : List ComponentDef) : Eff.Keeps Valid (sweep impls refresh p defs) := by
  induction defs generalizing p with
  | nil => exact Eff.Keeps.pure _
  | cons d ds ih =>
    unfold sweep
    split
    next => exact Eff.Keeps.bind (runBuild_keeps hrefresh d) fun _ => ih _
    next => exact Eff.Keeps.bind (ih p) fun _ => Eff.Keeps.pure _

theorem sweeps_keeps (hrefresh : Eff.Keeps Valid refresh) (p : Progress)
    (remaining : List ComponentDef) : Eff.Keeps Valid (sweeps impls refresh p remaining) := by
  induction hl : remaining.length using Nat.strongRecOn generalizing p remaining with
  | _ l ih =>
    rw [sweeps]
    refine Eff.Keeps.bind (sweep_keeps hrefresh p remaining) fun out => ?_
    obtain ⟨p', rest⟩ := out
    dsimp only
    split
    next hlt => exact ih rest.length (by omega) p' rest rfl
    next => exact Eff.Keeps.pure _

theorem finish_keeps (hrefresh : Eff.Keeps Valid refresh) (batch : RustType → Bool) (p : Progress)
    (remaining : List ComponentDef) : Eff.Keeps Valid (finish impls refresh batch p remaining) := by
  unfold finish
  split
  next => exact Eff.Keeps.throw _
  next =>
    split
    next => exact Eff.Keeps.throw _
    next => exact Eff.Keeps.forM fun d _ => runBuild_keeps hrefresh d

theorem pass_keeps (hrefresh : Eff.Keeps Valid refresh) :
    Eff.Keeps Valid (pass impls refresh) := by
  unfold pass
  refine Eff.Keeps.bind Eff.Keeps.read fun ctx => ?_
  refine Eff.Keeps.bind (Eff.Keeps.modify fun _ h => h) fun _ => ?_
  refine Eff.Keeps.bind (sweeps_keeps hrefresh _ _) fun out => ?_
  exact finish_keeps hrefresh _ _ _

theorem refresh_keeps (fuel : Nat) : Eff.Keeps Valid (Container.refresh impls fuel) := by
  induction fuel with
  | zero => exact Eff.Keeps.unfinished
  | succ fuel ih =>
    refine Eff.Keeps.bind Eff.Keeps.read fun ctx => ?_
    split
    next => exact Eff.Keeps.pure ()
    next => exact Eff.Keeps.bind (pass_keeps ih) fun _ => ih

end Calls

theorem request_keeps (impls : RustType → ComponentImpl) (fuel : Nat) (r : ContextMethod) :
    Eff.Keeps Valid (request impls fuel r) :=
  serve_keeps (refresh_keeps fuel) r

/-- A new context, and then calls that return, with an error or not. -/
def calls (impls : RustType → ComponentImpl) : System Container ContextMethod where
  start ctx := ctx = {}
  step ctx r ctx' := ∃ fuel reply, request impls fuel r ctx = .ok (reply, ctx')

theorem valid_of_reachable {impls : RustType → ComponentImpl} {ctx : Container}
    (h : (calls impls).Reachable ctx) : ctx.Valid := by
  refine System.Reach.invariant ?_ ?_ h
  · rintro _ rfl type list hl
    simp at hl
  · rintro ctx r ctx' hv _ ⟨fuel, reply, hstep⟩
    have hkeeps := request_keeps impls fuel r ctx hv
    unfold Eff.Ends at hkeeps
    rw [hstep] at hkeeps
    exact hkeeps

/-- How `get` settles what is filed under a type. -/
def Resolves (ctx : Container) (type : RustType) : Prop :=
  match ctx.instances.lookup type with
  | none => ctx.get type = .ok (.error (.notFound type))
  | some [x] => ctx.get type = .ok (.ok x.2.bean)
  | some list =>
    (∀ x, list.filter (fun x => x.1.isPrimary) = [x] → ctx.get type = .ok (.ok x.2.bean)) ∧
    ((list.filter fun x => x.1.isPrimary).length ≠ 1 →
      ctx.get type = .ok (.error (.ambiguous type)))

theorem Valid.resolves {ctx : Container} (h : ctx.Valid) (type : RustType) :
    ctx.Resolves type := by
  unfold Resolves
  split
  next hl =>
    unfold Container.get
    rw [hl]
  next x hl =>
    unfold Container.get
    rw [hl]
    exact expectDowncast_eq ((h _ _ hl).typed x List.mem_cons_self)
  next list hne hl =>
    have htyped := (h _ _ hl).typed
    constructor
    · intro x hx
      have hmem : x ∈ list.filter fun x => x.1.isPrimary := by
        rw [hx]
        exact List.mem_cons_self
      unfold Container.get
      rw [hl]
      split
      next heq => cases heq
      next y heq => exact absurd (Option.some.inj heq) (hne y)
      next heq =>
        cases heq
        rw [hx]
        exact expectDowncast_eq (htyped x (List.mem_filter.mp hmem).1)
    · intro hlen
      unfold Container.get
      rw [hl]
      split
      next heq => cases heq
      next y heq => exact absurd (Option.some.inj heq) (hne y)
      next heq =>
        cases heq
        split
        next => rfl
        next y hy =>
          rw [hy] at hlen
          exact absurd rfl hlen
        next => rfl

/-- Whatever was called, and whether it failed: the lists are as they should be, no call panics, and
lookups find all there is. -/
theorem container_invariant (impls : RustType → ComponentImpl) (ctx : Container)
    (h : (calls impls).Reachable ctx) :
    (∀ type list, ctx.instances.lookup type = some list → list ≠ [] ∧
      ((∀ x ∈ list, x.1.isDefault = true) ∨ ∀ x ∈ list, x.1.isDefault = false) ∧
      ∀ x ∈ list, x.2.typeId = type) ∧
    (∀ fuel r, request impls fuel r ctx ≠ .error .panicked) ∧
    (∀ type, ctx.getAll type =
      ((ctx.instances.lookup type).getD []).map fun x => x.2.bean) ∧
    ∀ type, ctx.Resolves type := by
  have hv := valid_of_reachable h
  refine ⟨fun type list hl => ?_, fun fuel r hpanic => ?_, fun type => ?_, hv.resolves⟩
  · have hb := hv type list hl
    exact ⟨hb.nonempty, hb.uniform, hb.typed⟩
  · have hkeeps := request_keeps impls fuel r ctx hv
    unfold Eff.Ends at hkeeps
    rw [hpanic] at hkeeps
    cases hkeeps
  · unfold Container.getAll
    cases hl : ctx.instances.lookup type with
    | none => rfl
    | some list => exact (hv type list hl).getAll

def repo : RustType := .named ['R', 'e', 'p', 'o']

/-- A component that files a default of its own type once it is built. -/
def repoImpl : ComponentImpl where
  provides := [repo]
  build := .done (.ok (.given 1))
  registerBindings _ :=
    .send (.registerWithEntry ⟨repo, .frameworkDefault, false, none⟩ ⟨repo, .given 0⟩)
      fun reply => .done (reply.map fun _ => ())

def refreshed : Container where
  instances := AList.insert repo [(⟨repo, .user, false, none⟩, ⟨repo, .given 1⟩)] ∅
  registered := [⟨repo, [], [], [repo]⟩]
  built := [⟨repo, [], [], [repo]⟩]

theorem container_invariant_refreshed : refreshed.getAll repo = [.given 1] := by
  have hqueue : (calls fun _ => repoImpl).step {} (.registerComponent repo)
      { pending := [⟨repo, [], [], [repo]⟩], registered := [⟨repo, [], [], [repo]⟩] } :=
    ⟨0, .ok [], rfl⟩
  have hrefresh : (calls fun _ => repoImpl).step
      { pending := [⟨repo, [], [], [repo]⟩], registered := [⟨repo, [], [], [repo]⟩] } .refresh
      refreshed := ⟨2, .ok [], rfl⟩
  have h : (calls fun _ => repoImpl).Reachable refreshed :=
    .step (.step (.start rfl) trivial hqueue) trivial hrefresh
  rw [(container_invariant _ refreshed h).2.2.1]
  rfl

end Container

end Kernway
