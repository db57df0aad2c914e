import Kernway.RouterSpec

namespace Kernway

variable {H : Type}

/-- The trie path a walk takes to the handler it finds: the name at each parameter child, `none` at
each static one. -/
def trail (method : Text) : List Text → Node H → Option (List (Option Text) × H)
  | [], node => (node.handlerFor method).map fun handler => ([], handler)
  | seg :: rest, node =>
    (((node.statics seg).bind (trail method rest)).map fun t => (none :: t.1, t.2)).or
      (node.param.bind fun p => (trail method rest p.2).map fun t => (some p.1 :: t.1, t.2))

/-- The segment at the last occurrence of each placeholder of a trie path. -/
def boundParams (names : List (Option Text)) (segs : List Text) : Params := fun name =>
  ((names.zip segs).reverse.find? fun p => p.1 = some name).map Prod.snd

/-- The walk of the static child, where there is one. -/
def walkStatic (method : Text) (node : Node H) (seg rest : Text) (params : Params) :
    Option H × Params :=
  match node.statics seg with
  | some child => walk child rest method params
  | none => (none, params)

/-- The calls of `walk` that one call makes, itself included. -/
inductive Visits (method : Text) : Node H → Text → Params → Node H → Text → Params → Prop
  | self {node : Node H} {path : Text} {params : Params} :
    Visits method node path params node path params
  | static {node child node' : Node H} {path path' seg rest : Text} {params params' : Params} :
    peel path = some (seg, rest) → node.statics seg = some child →
    Visits method child rest params node' path' params' →
    Visits method node path params node' path' params'
  | param {node child node' : Node H} {path path' seg rest name : Text} {params params' : Params} :
    peel path = some (seg, rest) → (walkStatic method node seg rest params).1 = none →
    node.param = some (name, child) →
    Visits method child rest ((walkStatic method node seg rest params).2.insert name seg)
      node' path' params' →
    Visits method node path params node' path' params'

/-- A found handler comes with the bindings of its trie path and no others, and every failed walk
leaves `params` as it found it. -/
structure ParamsExact (u : UnicodeCase) (routes : List (Route H)) : Prop where
  bound : ∀ method path handler params,
    (Router.ofRoutes u routes).find method path = some (handler, params) →
    ∃ names, trail method (segments path) (Router.ofRoutes u routes).root = some (names, handler) ∧
      params = boundParams names (segments path)
  restored : ∀ method path node rest params,
    Visits method (Router.ofRoutes u routes).root path .empty node rest params →
    (walk node rest method params).1 = none → (walk node rest method params).2 = params

/-- The parameter names along a path down from a node. -/
inductive TriePath : Node H → List Text → Prop
  | nil {node : Node H} : TriePath node []
  | static {node child : Node H} {seg : Text} {names : List Text} :
    node.statics seg = some child → TriePath child names → TriePath node names
  | param {node child : Node H} {name : Text} {names : List Text} :
    node.param = some (name, child) → TriePath child names → TriePath node (name :: names)

/-- No path through the trie binds a name twice. -/
def NamesDistinct (node : Node H) : Prop := ∀ names, TriePath node names → names.Nodup

/-- No name below the node is bound yet, nor is any bound twice. -/
def Fresh (node : Node H) (params : Params) : Prop :=
  ∀ names, TriePath node names → names.Nodup ∧ ∀ n ∈ names, params n = none

theorem Fresh.static {node child : Node H} {params : Params} {seg : Text} (h : Fresh node params)
    (hs : node.statics seg = some child) : Fresh child params :=
  fun names ht => h names (.static hs ht)

theorem Fresh.param {node child : Node H} {params : Params} {name seg : Text}
    (h : Fresh node params) (hp : node.param = some (name, child)) :
    Fresh child (params.insert name seg) := by
  intro names ht
  obtain ⟨hnd, hnone⟩ := h _ (.param hp ht)
  obtain ⟨hmem, hnd⟩ := List.nodup_cons.mp hnd
  refine ⟨hnd, fun n hn => ?_⟩
  rw [Params.insert, Function.update_of_ne (by rintro rfl; exact hmem hn)]
  exact hnone n (List.mem_cons_of_mem name hn)

theorem Params.remove_insert {params : Params} {name : Text} (h : params name = none)
    (seg : Text) : (params.insert name seg).remove name = params := by
  rw [Params.remove, Params.insert, Function.update_idem, ← h, Function.update_eq_self]

theorem Fresh.remove_insert {node child : Node H} {params : Params} {name : Text}
    (h : Fresh node params) (hp : node.param = some (name, child)) (seg : Text) :
    (params.insert name seg).remove name = params :=
  Params.remove_insert ((h [name] (.param hp .nil)).2 name (by simp)) seg

def bindAll : List (Option Text × Text) → Params → Params
  | [], params => params
  | (none, _) :: rest, params => bindAll rest params
  | (some name, seg) :: rest, params => bindAll rest (params.insert name seg)

theorem bindAll_apply (ps : List (Option Text × Text)) (params : Params) (name : Text) :
    bindAll ps params name =
      ((ps.reverse.find? fun p => p.1 = some name).map Prod.snd).or (params name) := by
  induction ps generalizing params with
  | nil => rfl
  | cons p ps ih =>
    obtain ⟨_ | n, seg⟩ := p
    · simp [bindAll, ih, List.find?_append]
    · rw [bindAll, ih, List.reverse_cons, List.find?_append]
      by_cases hn : n = name
      · subst hn
        simp only [Params.insert, Function.update_self]
        cases ps.reverse.find? fun p => p.1 = some n <;> simp
      · simp [Params.insert, Function.update_of_ne (Ne.symm hn), hn]

theorem bindAll_empty (names : List (Option Text)) (segs : List Text) :
    bindAll (names.zip segs) .empty = boundParams names segs := by
  funext name
  rw [bindAll_apply, boundParams, Params.empty, Option.or_none]

/-- What a walk gives that finds a trail, or none. -/
def walked (segs : List Text) (params : Params) :
    Option (List (Option Text) × H) → Option H × Params
  | none => (none, params)
  | some (names, handler) => (some handler, bindAll (names.zip segs) params)

/-- The walk of the parameter child, where there is one. -/
def walkParam (method seg : Text) (rest : List Text) (node : Node H) (params : Params) :
    Option H × Params :=
  match node.param with
  | none => (none, params)
  | some (name, child) =>
    match walkSegs method rest child (params.insert name seg) with
    | (some handler, params) => (some handler, params)
    | (none, params) => (none, params.remove name)

theorem walkSegs_param {method seg : Text} {rest : List Text} {node : Node H} {params : Params}
    (hs : node.statics seg = none) :
    walkSegs method (seg :: rest) node params = walkParam method seg rest node params := by
  simp only [walkSegs, hs]
  rfl

theorem walkSegs_backtrack {method seg : Text} {rest : List Text} {node child : Node H}
    {params : Params} (hs : node.statics seg = some child)
    (hn : walkSegs method rest child params = (none, params)) :
    walkSegs method (seg :: rest) node params = walkParam method seg rest node params := by
  simp only [walkSegs, hs, hn]
  rfl

theorem walkParam_fresh {method : Text} {rest : List Text} {node : Node H} {params : Params}
    (h : Fresh node params)
    (ih : ∀ (child : Node H) (params : Params), Fresh child params →
      walkSegs method rest child params = walked rest params (trail method rest child))
    (seg : Text) :
    walkParam method seg rest node params = walked (seg :: rest) params
      (node.param.bind fun p => (trail method rest p.2).map fun t => (some p.1 :: t.1, t.2)) := by
  unfold walkParam
  cases hp : node.param with
  | none => rfl
  | some p =>
    obtain ⟨name, child⟩ := p
    simp only [ih child _ (h.param hp), Option.bind_some]
    cases trail method rest child with
    | none => simp only [walked, Option.map_none, h.remove_insert hp]
    | some t => rfl

/-- Where names are fresh, a failed walk restores `params` and a successful one binds its trail. -/
theorem walkSegs_fresh {method : Text} {segs : List Text} {node : Node H} {params : Params}
    (h : Fresh node params) :
    walkSegs method segs node params = walked segs params (trail method segs node) := by
  induction segs generalizing node params with
  | nil =>
    simp only [walkSegs, trail]
    cases node.handlerFor method <;> rfl
  | cons seg rest ih =>
    have hparam := walkParam_fresh h (fun _ _ => ih) seg
    cases hs : node.statics seg with
    | none => simpa only [walkSegs_param hs, trail, hs, Option.bind_none, Option.map_none,
        Option.none_or] using hparam
    | some child =>
      have hchild := ih (h.static hs)
      cases ht : trail method rest child with
      | none =>
        rw [ht, walked] at hchild
        simpa only [walkSegs_backtrack hs hchild, trail, hs, Option.bind_some, ht,
          Option.map_none, Option.none_or] using hparam
      | some t =>
        simp only [walkSegs, trail, hs, Option.bind_some, ht, hchild]
        rfl

theorem walk_fresh {method path : Text} {node : Node H} {params : Params} (h : Fresh node params)
    (hn : (walk node path method params).1 = none) : (walk node path method params).2 = params := by
  rw [walk_eq_walkSegs, walkSegs_fresh h] at hn ⊢
  cases ht : trail method (segments path) node with
  | none => rfl
  | some t => simp [ht, walked] at hn

theorem walkStatic_fresh {method seg rest : Text} {node : Node H} {params : Params}
    (h : Fresh node params) (hn : (walkStatic method node seg rest params).1 = none) :
    (walkStatic method node seg rest params).2 = params := by
  unfold walkStatic at hn ⊢
  split
  next child hs =>
    simp only [hs] at hn
    exact walk_fresh (h.static hs) hn
  next => rfl

theorem Visits.fresh {method path path' : Text} {node node' : Node H} {params params' : Params}
    (hv : Visits method node path params node' path' params') (h : Fresh node params) :
    Fresh node' params' := by
  induction hv with
  | self => exact h
  | static _ hs _ ih => exact ih (h.static hs)
  | param _ hn hp _ ih => exact ih (by rw [walkStatic_fresh h hn]; exact h.param hp)

/-- The calls that one call of `walkSegs` makes. -/
inductive VisitsSegs (method : Text) :
    Node H → List Text → Params → Node H → List Text → Params → Prop
  | self {node : Node H} {segs : List Text} {params : Params} :
    VisitsSegs method node segs params node segs params
  | static {node child node' : Node H} {seg : Text} {rest segs' : List Text}
    {params params' : Params} : node.statics seg = some child →
    VisitsSegs method child rest params node' segs' params' →
    VisitsSegs method node (seg :: rest) params node' segs' params'
  | param {node child node' : Node H} {seg name : Text} {rest segs' : List Text}
    {params params' : Params} : node.statics seg = none → node.param = some (name, child) →
    VisitsSegs method child rest (params.insert name seg) node' segs' params' →
    VisitsSegs method node (seg :: rest) params node' segs' params'

theorem peel_of_segments {path seg : Text} {rest : List Text} (h : segments path = seg :: rest) :
    ∃ path', peel path = some (seg, path') ∧ segments path' = rest := by
  rw [segments_of_peel] at h
  cases hp : peel path with
  | none => simp [hp] at h
  | some p =>
    simp only [hp, List.cons.injEq] at h
    exact ⟨p.2, by rw [← h.1], h.2⟩

theorem VisitsSegs.visits {method : Text} {node node' : Node H} {segs segs' : List Text}
    {params params' : Params} (h : VisitsSegs method node segs params node' segs' params')
    {path : Text} (hp : segments path = segs) :
    ∃ path', segments path' = segs' ∧ Visits method node path params node' path' params' := by
  induction h generalizing path with
  | self => exact ⟨path, hp, .self⟩
  | static hs _ ih =>
    obtain ⟨rest, hpeel, hrest⟩ := peel_of_segments hp
    obtain ⟨path', hpath', hv⟩ := ih hrest
    exact ⟨path', hpath', .static hpeel hs hv⟩
  | param hs hparam _ ih =>
    obtain ⟨rest, hpeel, hrest⟩ := peel_of_segments hp
    obtain ⟨path', hpath', hv⟩ := ih hrest
    exact ⟨path', hpath', .param hpeel (by simp [walkStatic, hs]) hparam
      (by simpa [walkStatic, hs] using hv)⟩

/-- A method that no route has, and a segment that no pattern has. -/
structure Unknown (method seg : Text) (rs : List (Stored H)) : Prop where
  method : ∀ e ∈ rs, eqIgnoreAsciiCase e.method method = false
  seg : ∀ e ∈ rs, seg ∉ e.segs

theorem Unknown.under {method new : Text} {rs : List (Stored H)} (h : Unknown method new rs)
    (seg : Text) : Unknown method new (rs.filterMap (Stored.under seg)) := by
  constructor
  all_goals
    intro e' he'
    obtain ⟨e, he, hu⟩ := List.mem_filterMap.mp he'
    obtain ⟨rfl, _⟩ := under_eq_some_iff.mp hu
  · exact (h.method _ he :)
  · exact fun hmem => h.seg _ he (List.mem_cons_of_mem seg hmem)

theorem Unknown.below {method new : Text} {rs : List (Stored H)} (h : Unknown method new rs) :
    Unknown method new (paramRoutes rs) := by
  rw [paramRoutes_eq]
  constructor
  all_goals
    intro e' he'
    obtain ⟨e, he, hb⟩ := List.mem_filterMap.mp he'
    obtain ⟨p, rfl, _⟩ := below_eq_some_iff.mp hb
  · exact (h.method _ he :)
  · exact fun hmem => h.seg _ he (List.mem_cons_of_mem p hmem)

theorem Unknown.statics {method new : Text} {rs : List (Stored H)} (h : Unknown method new rs) :
    (Node.build rs).statics new = none := by
  rw [Node.build_statics, Node.ofList, if_pos]
  refine List.filterMap_eq_nil_iff.mpr fun e he => ?_
  cases hu : e.under new with
  | none => rfl
  | some e' =>
    obtain ⟨rfl, _⟩ := under_eq_some_iff.mp hu
    exact absurd (List.mem_cons_self ..) (h.seg _ he)

theorem Unknown.lookup {method new : Text} {rs : List (Stored H)} (h : Unknown method new rs)
    (segs : List Text) : lookup method segs (Node.build rs) = none :=
  lookup_eq_none_iff.mpr fun e he hm => Bool.false_ne_true ((h.method e he).symm.trans hm.1)

theorem build_param_eq_some {rs : List (Stored H)} {name : Text} {child : Node H}
    (h : (Node.build rs).param = some (name, child)) : child = Node.build (paramRoutes rs) := by
  rw [Node.build_param, Option.map_eq_some_iff] at h
  obtain ⟨_, _, h⟩ := h
  exact (Prod.mk.inj h).2.symm

theorem build_statics_eq_some {rs : List (Stored H)} {seg : Text} {child : Node H}
    (h : (Node.build rs).statics seg = some child) :
    child = Node.build (rs.filterMap (Stored.under seg)) ∧ ∃ e ∈ rs, seg ∈ e.segs := by
  rw [Node.build_statics, Node.ofList] at h
  split at h
  next => simp at h
  next hne =>
    obtain ⟨e', he'⟩ := List.exists_mem_of_ne_nil _ hne
    obtain ⟨e, he, hu⟩ := List.mem_filterMap.mp he'
    obtain ⟨rfl, _⟩ := under_eq_some_iff.mp hu
    exact ⟨(Option.some.inj h).symm, _, he, by simp⟩

/-- Where a name is bound twice on the way down, some failed walk does not restore `params`. -/
theorem exists_unrestored {method new : Text} {rs : List (Stored H)} {names : List Text}
    (hu : Unknown method new rs) (ht : TriePath (Node.build rs) names) (params : Params)
    (hbad : ¬ names.Nodup ∨ ∃ n ∈ names, params n ≠ none) :
    ∃ segs node rest params', (∀ s ∈ segs, s = new ∨ ∃ e ∈ rs, s ∈ e.segs) ∧
      VisitsSegs method (Node.build rs) segs params node rest params' ∧
      (walkSegs method rest node params').1 = none ∧
      (walkSegs method rest node params').2 ≠ params' := by
  generalize hnode : Node.build rs = node at ht
  induction ht generalizing rs params with
  | nil => simp at hbad
  | @static node child seg names hs ht ih =>
    subst hnode
    obtain ⟨rfl, e, he, hmem⟩ := build_statics_eq_some hs
    obtain ⟨segs, node', rest, params', hsegs, hv, hnone, hne⟩ := ih (hu.under seg) params hbad rfl
    refine ⟨seg :: segs, node', rest, params', ?_, .static hs hv, hnone, hne⟩
    rintro s (_ | ⟨_, hs'⟩)
    · exact .inr ⟨e, he, hmem⟩
    · refine (hsegs s hs').imp_right fun ⟨e', he', hmem'⟩ => ?_
      obtain ⟨e, he, hunder⟩ := List.mem_filterMap.mp he'
      obtain ⟨rfl, _⟩ := under_eq_some_iff.mp hunder
      exact ⟨_, he, List.mem_cons_of_mem seg hmem'⟩
  | @param node child name names hp ht ih =>
    subst hnode
    obtain rfl := build_param_eq_some hp
    by_cases hname : params name = none
    · have hbad' : ¬ names.Nodup ∨ ∃ n ∈ names, params.insert name new n ≠ none := by
        rw [List.nodup_cons, not_and_or, not_not] at hbad
        rcases hbad with (hmem | hnd) | ⟨n, hmem, hn⟩
        · exact .inr ⟨name, hmem, by simp [Params.insert]⟩
        · exact .inl hnd
        · have hne : n ≠ name := by rintro rfl; exact hn hname
          refine .inr ⟨n, (List.mem_cons.mp hmem).resolve_left hne, ?_⟩
          rwa [Params.insert, Function.update_of_ne hne]
      obtain ⟨segs, node', rest, params', hsegs, hv, hnone, hne⟩ := ih hu.below _ hbad' rfl
      refine ⟨new :: segs, node', rest, params', ?_, .param hu.statics hp hv, hnone, hne⟩
      rintro s (_ | ⟨_, hs'⟩)
      · exact .inl rfl
      · refine (hsegs s hs').imp_right fun ⟨e', he', hmem'⟩ => ?_
        rw [paramRoutes_eq] at he'
        obtain ⟨e, he, hbelow⟩ := List.mem_filterMap.mp he'
        obtain ⟨p, rfl, _⟩ := below_eq_some_iff.mp hbelow
        exact ⟨_, he, List.mem_cons_of_mem p hmem'⟩
    · have hchild : lookup method [] (Node.build (paramRoutes rs)) = none := hu.below.lookup []
      have hwalk : walkSegs method [new] (Node.build rs) params =
          (none, (params.insert name new).remove name) := by
        simp only [lookup] at hchild
        simp only [walkSegs, hu.statics, hp, hchild]
      refine ⟨[new], Node.build rs, [new], params, by simp, .self, by rw [hwalk], ?_⟩
      rw [hwalk]
      intro heq
      have := congrFun heq name
      simp [Params.remove] at this
      exact hname this.symm

theorem mem_segments {path seg : Text} (h : seg ∈ segments path) : seg ≠ [] ∧ '/' ∉ seg := by
  obtain ⟨hmem, hne⟩ := List.mem_filter.mp h
  refine ⟨by simpa using hne, ?_⟩
  clear h hne
  induction hl : path.length using Nat.strongRecOn generalizing path with
  | _ l ih =>
    cases hc : cutAt '/' path with
    | none =>
      have hn := cutAt_eq_none_iff.mp hc
      rw [List.splitOn_eq_singleton hn, List.mem_singleton] at hmem
      rwa [hmem]
    | some p =>
      have hcut : cutAt '/' path = some (p.1, p.2) := hc
      have hlen := cutAt_length hcut
      obtain ⟨heq, hn⟩ := cutAt_eq_some_iff.mp hcut
      rw [heq, List.splitOn_append_cons_self, List.splitOn_eq_singleton hn, List.mem_append,
        List.mem_singleton] at hmem
      rcases hmem with rfl | hmem
      · exact hn
      · exact ih p.2.length (by omega) hmem rfl

def joinPath (segs : List Text) : Text := segs.flatMap fun seg => '/' :: seg

theorem segments_joinPath {segs : List Text} (h : ∀ s ∈ segs, s ≠ [] ∧ '/' ∉ s) :
    segments (joinPath segs) = segs := by
  induction segs with
  | nil => rfl
  | cons seg rest ih =>
    obtain ⟨hne, hn⟩ := h seg (by simp)
    have hrest := ih fun s hs => h s (List.mem_cons_of_mem seg hs)
    rw [joinPath, List.flatMap_cons, ← joinPath, List.cons_append, segments_slash]
    cases rest with
    | nil => 
      rw [joinPath, List.flatMap_nil, List.append_nil,
        segments_whole (cutAt_eq_none_iff.mpr hn) hne]
    | cons s ss =>
      rw [joinPath, List.flatMap_cons, ← joinPath, List.cons_append, segments_slash] at hrest
      rw [joinPath, List.flatMap_cons, ← joinPath, List.cons_append,
        segments_cut (cutAt_eq_some_iff.mpr ⟨rfl, hn⟩) hne, hrest]

theorem exists_longer (xs : List Text) : ∃ n, ∀ x ∈ xs, x.length < n := by
  induction xs with
  | nil => exact ⟨0, by simp⟩
  | cons x xs ih =>
    obtain ⟨n, hn⟩ := ih
    refine ⟨max n (x.length + 1), ?_⟩
    rintro y (_ | ⟨_, hy⟩)
    · omega
    · have := hn y hy
      omega

theorem exists_unknown (rs : List (Stored H)) :
    ∃ method new, Unknown method new rs ∧ new ≠ [] ∧ '/' ∉ new := by
  obtain ⟨n, hn⟩ := exists_longer (rs.map Stored.method)
  obtain ⟨k, hk⟩ := exists_longer (rs.flatMap Stored.segs)
  refine ⟨List.replicate n 'x', List.replicate (k + 1) 'x', ⟨fun e he => ?_, fun e he hmem => ?_⟩,
    by simp, by simp⟩
  · rw [← Bool.not_eq_true, eqIgnoreAsciiCase_iff]
    intro h
    have hlen := congrArg List.length h
    have := hn e.method (List.mem_map_of_mem he)
    simp only [toAsciiLowercase, List.length_map, List.length_replicate] at hlen
    omega
  · have := hk _ (List.mem_flatMap.mpr ⟨e, he, hmem⟩)
    rw [List.length_replicate] at this
    omega

/-- Parameters are exact, for every request, exactly where no trie path binds a name twice. -/
theorem paramsExact_iff (u : UnicodeCase) (routes : List (Route H)) :
    ParamsExact u routes ↔ NamesDistinct (Router.ofRoutes u routes).root := by
  constructor
  · intro h names ht
    by_contra hnd
    obtain ⟨method, new, hu, hne, hslash⟩ := exists_unknown (routes.map (storedOf u))
    rw [root_ofRoutes] at ht
    obtain ⟨segs, node, rest, params, hsegs, hv, hnone, hchanged⟩ :=
      exists_unrestored hu ht Params.empty (.inl hnd)
    have hgood : ∀ s ∈ segs, s ≠ [] ∧ '/' ∉ s := by
      intro s hs
      rcases hsegs s hs with rfl | ⟨e, he, hmem⟩
      · exact ⟨hne, hslash⟩
      · obtain ⟨r, _, rfl⟩ := List.mem_map.mp he
        exact mem_segments hmem
    obtain ⟨path', hpath', hvisits⟩ := hv.visits (segments_joinPath hgood)
    rw [← root_ofRoutes] at hvisits
    refine hchanged ?_
    rw [← hpath', ← walk_eq_walkSegs]
    refine h.restored method _ node path' params hvisits ?_
    rw [walk_eq_walkSegs, hpath', hnone]
  · intro h
    have hfresh : Fresh (Router.ofRoutes u routes).root .empty :=
      fun names ht => ⟨h names ht, fun _ _ => rfl⟩
    refine ⟨fun method path handler params hf => ?_, fun method path node rest params hv hn => ?_⟩
    · rw [Router.find, walk_eq_walkSegs, walkSegs_fresh hfresh] at hf
      cases ht : trail method (segments path) (Router.ofRoutes u routes).root with
      | none => simp [ht, walked] at hf
      | some t =>
        simp only [ht, walked, Option.some.injEq, Prod.mk.injEq] at hf
        obtain ⟨rfl, rfl⟩ := hf
        exact ⟨t.1, rfl, bindAll_empty ..⟩
    · exact walk_fresh (hv.fresh hfresh) hn

/-- Two routes whose paths share `/{id}/`, one of which binds `id` twice. -/
def rebindingRoutes : List (Route Nat) :=
  [⟨"GET".toList, "/{id}/a/{id}/x".toList, 1⟩, ⟨"GET".toList, "/{id}/{q}/b/y".toList, 2⟩]

/-- Backtracking out of the first route removes the `id` that the second one had bound. -/
theorem not_paramsExact :
    ¬ ∀ (u : UnicodeCase) (routes : List (Route Nat)), ParamsExact u routes := by
  intro h
  have hfind : ((Router.ofRoutes acuteCase rebindingRoutes).find "GET".toList
      "/1/a/b/y".toList).map (fun p => (p.1, p.2 "id".toList)) = some (2, none) := by decide +kernel
  have htrail : (trail "GET".toList (segments "/1/a/b/y".toList)
      (Router.ofRoutes acuteCase rebindingRoutes).root) =
      some ([some "id".toList, some "q".toList, none, none], 2) := by decide +kernel
  obtain ⟨⟨handler, params⟩, hf, heq⟩ := Option.map_eq_some_iff.mp hfind
  obtain ⟨names, ht, hparams⟩ := (h acuteCase rebindingRoutes).bound _ _ _ _ hf
  rw [htrail, Option.some.injEq, Prod.mk.injEq] at ht
  have hnone : params "id".toList = none := (Prod.mk.inj heq).2
  rw [hparams, ← ht.1] at hnone
  exact absurd hnone (by decide +kernel)

end Kernway
