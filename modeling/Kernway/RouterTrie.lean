import Kernway.Router

namespace Kernway

variable {H : Type}

theorem segments_slash (path : Text) : segments ('/' :: path) = segments path := by
  simp [segments, List.splitOn_cons_eq_if_modifyHead]

theorem segments_dropWhile (path : Text) :
    segments (path.dropWhile (· == '/')) = segments path := by
  induction path with
  | nil => rfl
  | cons c path ih =>
    by_cases hc : c = '/'
    · subst hc
      rw [segments_slash, ← ih]
      rfl
    · simp [hc]

theorem segments_cut {path before after : Text} (h : cutAt '/' path = some (before, after))
    (hne : before ≠ []) : segments path = before :: segments after := by
  obtain ⟨rfl, hn⟩ := cutAt_eq_some_iff.mp h
  rw [segments, List.splitOn_append_cons_self, List.splitOn_eq_singleton hn, List.singleton_append,
    List.filter_cons_of_pos (by simpa using hne), ← segments]

theorem segments_whole {path : Text} (h : cutAt '/' path = none) (hne : path ≠ []) :
    segments path = [path] := by
  rw [segments, List.splitOn_eq_singleton (cutAt_eq_none_iff.mp h),
    List.filter_cons_of_pos (by simpa using hne), List.filter_nil]

/-- Peeling a path takes its segments one by one. -/
theorem segments_of_peel (path : Text) :
    segments path = match peel path with
      | none => []
      | some (seg, rest) => seg :: segments rest := by
  rw [← segments_dropWhile, peel]
  generalize hp : path.dropWhile (· == '/') = p
  have hhead : ∀ t, p ≠ '/' :: t := by
    rintro t rfl
    have := List.head?_dropWhile_not (· == '/') path
    simp [hp] at this
  split
  next hs =>
    split at hs
    next hnil => rw [hnil]; rfl
    next => simp at hs
  next seg rest hs =>
    split at hs
    next => simp at hs
    next hne =>
      cases hc : cutAt '/' p with
      | none =>
        simp only [hc, Option.getD_none, Option.some.injEq, Prod.mk.injEq] at hs
        obtain ⟨rfl, rfl⟩ := hs
        rw [segments_whole hc hne]
        rfl
      | some q =>
        simp only [hc, Option.getD_some, Option.some.injEq] at hs
        subst hs
        refine segments_cut hc ?_
        rintro rfl
        exact hhead rest (by simpa using (cutAt_eq_some_iff.mp hc).1)

/-- `walk` over the segments still to be matched. -/
def walkSegs (method : Text) : List Text → Node H → Params → Option H × Params
  | [], node, params => (node.handlerFor method, params)
  | seg :: rest, node, params =>
    let (found, params) := match node.statics seg with
      | some child => walkSegs method rest child params
      | none => (none, params)
    match found with
    | some handler => (some handler, params)
    | none =>
      match node.param with
      | none => (none, params)
      | some (name, child) =>
        match walkSegs method rest child (params.insert name seg) with
        | (some handler, params) => (some handler, params)
        | (none, params) => (none, params.remove name)

theorem walk_eq_walkSegs (node : Node H) (path method : Text) (params : Params) :
    walk node path method params = walkSegs method (segments path) node params := by
  induction hl : path.length using Nat.strongRecOn generalizing path node params with
  | _ l ih =>
    rw [walk, segments_of_peel]
    split
    next hp => simp [hp, walkSegs]
    next seg rest hp =>
      have hlt := peel_decreases hp
      have hih := fun node params => ih rest.length (by omega) node rest params rfl
      simp only [hp, hih]
      rfl

/-- The handler that a walk finds; it does not depend on the bindings made on the way. -/
def lookup (method : Text) : List Text → Node H → Option H
  | [], node => node.handlerFor method
  | seg :: rest, node =>
    ((node.statics seg).bind (lookup method rest)).or
      (node.param.bind fun p => lookup method rest p.2)

theorem walkSegs_fst (method : Text) (segs : List Text) (node : Node H) (params : Params) :
    (walkSegs method segs node params).1 = lookup method segs node := by
  induction segs generalizing node params with
  | nil => rfl
  | cons seg rest ih =>
    simp only [walkSegs, lookup]
    cases hs : node.statics seg with
    | none =>
      cases hp : node.param with
      | none => rfl
      | some p =>
        obtain ⟨name, child⟩ := p
        simp only [Option.bind_none, Option.none_or, Option.bind_some, ← ih child
          (params.insert name seg)]
        rcases walkSegs method rest child (params.insert name seg) with ⟨_ | h, ps⟩ <;> rfl
    | some child =>
      simp only [Option.bind_some, ← ih child params]
      rcases walkSegs method rest child params with ⟨_ | h, ps⟩
      · cases hp : node.param with
        | none => rfl
        | some p =>
          obtain ⟨name, child'⟩ := p
          simp only [Option.bind_some, ← ih child' (ps.insert name seg), Option.none_or]
          rcases walkSegs method rest child' (ps.insert name seg) with ⟨_ | h, ps'⟩ <;> rfl
      · rfl

/-- A route at some node: the segments still to be descended, the stored method, the handler. -/
structure Stored (H : Type) where
  segs : List Text
  method : Text
  handler : H

def storedOf (u : UnicodeCase) (r : Route H) : Stored H :=
  ⟨segments r.pattern, toUppercase u r.method, r.handler⟩

def Node.build (rs : List (Stored H)) : Node H :=
  rs.foldl (fun n e => n.add e.method e.handler e.segs) {}

theorem root_ofRoutes (u : UnicodeCase) (routes : List (Route H)) :
    (Router.ofRoutes u routes).root = Node.build (routes.map (storedOf u)) := by
  induction routes using List.reverseRecOn with
  | nil => rfl
  | append_singleton routes r ih =>
    simp only [Router.ofRoutes, Node.build, List.map_append, List.map_cons, List.map_nil,
      List.foldl_append, List.foldl_cons, List.foldl_nil] at ih ⊢
    rw [← ih]
    rfl

/-- The route below the static child for `seg`, if it leads there. -/
def Stored.under (seg : Text) (e : Stored H) : Option (Stored H) :=
  match e.segs with
  | p :: ps => if placeholder p = none ∧ p = seg then some { e with segs := ps } else none
  | [] => none

/-- The name a route gives the parameter child, and the route below it, if it leads there. -/
def Stored.underParam (e : Stored H) : Option (Text × Stored H) :=
  match e.segs with
  | p :: ps => (placeholder p).map fun name => (name, { e with segs := ps })
  | [] => none

def Stored.here (e : Stored H) : Option (Text × H) :=
  if e.segs = [] then some (e.method, e.handler) else none

/-- The node that a list of routes makes, if there are any. -/
def Node.ofList (rs : List (Stored H)) : Option (Node H) :=
  if rs = [] then none else some (.build rs)

theorem Node.getD_ofList (rs : List (Stored H)) : (Node.ofList rs).getD {} = Node.build rs := by
  unfold Node.ofList
  split
  next h => rw [h]; rfl
  next => rfl

theorem Node.build_append (rs : List (Stored H)) (e : Stored H) :
    Node.build (rs ++ [e]) = (Node.build rs).add e.method e.handler e.segs := by
  simp [Node.build]

theorem Node.ofList_append (rs : List (Stored H)) (e : Stored H) :
    Node.ofList (rs ++ [e]) =
      some ((((Node.ofList rs).getD {}).add e.method e.handler e.segs)) := by
  rw [Node.getD_ofList, ← Node.build_append]
  simp [Node.ofList]

theorem Node.build_statics (rs : List (Stored H)) (seg : Text) :
    (Node.build rs).statics seg = Node.ofList (rs.filterMap (Stored.under seg)) := by
  induction rs using List.reverseRecOn with
  | nil => rfl
  | append_singleton rs e ih =>
    obtain ⟨segs, method, handler⟩ := e
    rw [Node.build_append, List.filterMap_append]
    cases segs with
    | nil =>
      have hu : [(⟨[], method, handler⟩ : Stored H)].filterMap (Stored.under seg) = [] := rfl
      rw [hu, List.append_nil, ← ih]
      rfl
    | cons p ps =>
      cases hp : placeholder p with
      | some name => simpa [Node.add, hp, Stored.under] using ih
      | none =>
        by_cases heq : p = seg
        · subst heq
          have hu : [(⟨p :: ps, method, handler⟩ : Stored H)].filterMap (Stored.under p) =
              [⟨ps, method, handler⟩] := by simp [Stored.under, hp]
          simp only [Node.add, hp, Function.update_self, hu, Node.ofList_append, ih]
        · have hu :
              [(⟨p :: ps, method, handler⟩ : Stored H)].filterMap (Stored.under seg) = [] := by
            simp [Stored.under, heq]
          simp only [Node.add, hp, Function.update_of_ne (Ne.symm heq), hu, List.append_nil, ih]

theorem Node.build_param (rs : List (Stored H)) :
    (Node.build rs).param = ((rs.filterMap Stored.underParam).head?.map fun q =>
      (q.1, Node.build ((rs.filterMap Stored.underParam).map Prod.snd))) := by
  induction rs using List.reverseRecOn with
  | nil => rfl
  | append_singleton rs e ih =>
    obtain ⟨segs, method, handler⟩ := e
    rw [Node.build_append, List.filterMap_append]
    cases segs with
    | nil =>
      have hu : [(⟨[], method, handler⟩ : Stored H)].filterMap Stored.underParam = [] := rfl
      rw [hu, List.append_nil, ← ih]
      rfl
    | cons p ps =>
      cases hp : placeholder p with
      | none => simpa [Node.add, hp, Stored.underParam] using ih
      | some name =>
        have hu : [(⟨p :: ps, method, handler⟩ : Stored H)].filterMap Stored.underParam =
            [(name, ⟨ps, method, handler⟩)] := by simp [Stored.underParam, hp]
        rw [hu]
        simp only [Node.add, hp, ih]
        cases rs.filterMap Stored.underParam with
        | nil => rfl
        | cons q qs => simp [Node.build]

theorem Node.build_handlers (rs : List (Stored H)) :
    (Node.build rs).handlers = rs.filterMap Stored.here := by
  induction rs using List.reverseRecOn with
  | nil => rfl
  | append_singleton rs e ih =>
    obtain ⟨segs, method, handler⟩ := e
    rw [Node.build_append, List.filterMap_append]
    cases segs with
    | nil => simp [Node.add, Stored.here, ih]
    | cons p ps => cases hp : placeholder p <;> simp [Node.add, hp, Stored.here, ih]

def paramRoutes (rs : List (Stored H)) : List (Stored H) :=
  (rs.filterMap Stored.underParam).map Prod.snd

theorem lookup_empty (method : Text) (segs : List Text) :
    lookup method segs (Node.build ([] : List (Stored H))) = none := by
  cases segs <;> rfl

theorem lookup_build_cons (method seg : Text) (rest : List Text) (rs : List (Stored H)) :
    lookup method (seg :: rest) (Node.build rs) =
      (lookup method rest (Node.build (rs.filterMap (Stored.under seg)))).or
        (lookup method rest (Node.build (paramRoutes rs))) := by
  simp only [lookup, Node.build_statics, Node.build_param, paramRoutes]
  congr 1
  · unfold Node.ofList
    split
    next h => rw [h, lookup_empty]; rfl
    next => rfl
  · cases rs.filterMap Stored.underParam with
    | nil => rw [List.map_nil, lookup_empty]; rfl
    | cons q qs => rfl

end Kernway
