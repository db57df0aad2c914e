import Kernway.FirstLeast
import Kernway.RouterTrie
import Mathlib

namespace Kernway

variable {H : Type}

def segmentMatches (p seg : Text) : Prop := placeholder p ≠ none ∨ p = seg

def Stored.Matches (method : Text) (segs : List Text) (e : Stored H) : Prop :=
  eqIgnoreAsciiCase e.method method = true ∧ List.Forall₂ segmentMatches e.segs segs

/-- Where a pattern has placeholders, in the order of its segments. -/
def rank (segs : List Text) : List Bool := segs.map fun p => (placeholder p).isSome

theorem rank_lt_cons (b : Bool) {k k' : List Bool} (h : k < k') : b :: k < b :: k' :=
  List.cons_lt_cons_iff.mpr (.inr ⟨rfl, h⟩)

theorem rank_le_cons (b : Bool) {k k' : List Bool} (h : k ≤ k') : b :: k ≤ b :: k' :=
  List.cons_le_cons b h

theorem rank_static_param (k k' : List Bool) :
    false :: k < true :: k' ∧ false :: k ≤ true :: k' := by
  have hlt : false :: k < true :: k' := List.cons_lt_cons_iff.mpr (.inl (by decide))
  exact ⟨hlt, le_of_lt hlt⟩

def Stored.below (e : Stored H) : Option (Stored H) := e.underParam.map Prod.snd

theorem paramRoutes_eq (rs : List (Stored H)) : paramRoutes rs = rs.filterMap Stored.below := by
  rw [paramRoutes, List.map_filterMap]
  rfl

theorem under_eq_some_iff {seg : Text} {e e' : Stored H} :
    e.under seg = some e' ↔
      e = ⟨seg :: e'.segs, e'.method, e'.handler⟩ ∧ placeholder seg = none := by
  obtain ⟨segs, m, handler⟩ := e
  obtain ⟨segs', m', handler'⟩ := e'
  cases segs with
  | nil => simp [Stored.under]
  | cons p ps => simp [Stored.under]; grind

theorem below_eq_some_iff {e e' : Stored H} :
    e.below = some e' ↔
      ∃ p, e = ⟨p :: e'.segs, e'.method, e'.handler⟩ ∧ (placeholder p).isSome := by
  obtain ⟨segs, m, handler⟩ := e
  obtain ⟨segs', m', handler'⟩ := e'
  cases segs with
  | nil => simp [Stored.below, Stored.underParam]
  | cons p ps => cases hp : placeholder p <;> simp [Stored.below, Stored.underParam, hp]

theorem matches_under {method seg : Text} {rest : List Text} {e e' : Stored H}
    (h : e.under seg = some e') : e.Matches method (seg :: rest) ↔ e'.Matches method rest := by
  obtain ⟨rfl, _⟩ := under_eq_some_iff.1 h
  simp [Stored.Matches, segmentMatches]

theorem matches_below {method seg : Text} {rest : List Text} {e e' : Stored H}
    (h : e.below = some e') : e.Matches method (seg :: rest) ↔ e'.Matches method rest := by
  obtain ⟨p, rfl, hp⟩ := below_eq_some_iff.1 h
  simp [Stored.Matches, segmentMatches, Option.isSome_iff_ne_none.mp hp]

theorem rank_under {seg : Text} {e e' : Stored H} (h : e.under seg = some e') :
    rank e.segs = false :: rank e'.segs := by
  obtain ⟨rfl, hp⟩ := under_eq_some_iff.1 h
  simp [rank, hp]

theorem rank_below {e e' : Stored H} (h : e.below = some e') :
    rank e.segs = true :: rank e'.segs := by
  obtain ⟨p, rfl, hp⟩ := below_eq_some_iff.1 h
  simp [rank, hp]

/-- A route that matches a path goes on below one of the two children. -/
theorem matches_cons {method seg : Text} {rest : List Text} {e : Stored H}
    (h : e.Matches method (seg :: rest)) : ∃ e', e.under seg = some e' ∨ e.below = some e' := by
  obtain ⟨segs, m, handler⟩ := e
  obtain ⟨_, hs⟩ := h
  obtain ⟨p, ps, hp, _, rfl⟩ := List.forall₂_cons_right_iff.1 hs
  refine ⟨⟨ps, m, handler⟩, ?_⟩
  cases hph : placeholder p with
  | some name => exact .inr (below_eq_some_iff.2 ⟨p, rfl, by simp [hph]⟩)
  | none =>
    obtain rfl := hp.resolve_left fun h => h hph
    exact .inl (under_eq_some_iff.2 ⟨rfl, hph⟩)

theorem lookup_nil (method : Text) (rs : List (Stored H)) :
    lookup method [] (Node.build rs) =
      (rs.find? fun e => e.segs = [] && eqIgnoreAsciiCase e.method method).map Stored.handler := by
  rw [lookup, Node.handlerFor, Node.build_handlers]
  induction rs with
  | nil => rfl
  | cons e rs ih =>
    by_cases hs : e.segs = []
    · rw [List.filterMap_cons_some (b := (e.method, e.handler)) (by simp [Stored.here, hs])]
      simp only [List.find?_cons, hs, decide_true, Bool.true_and]
      split
      next => rfl
      next => exact ih
    · rw [List.filterMap_cons_none (by simp [Stored.here, hs]), ih]
      simp [hs]

theorem matches_nil {method : Text} {e : Stored H} :
    e.Matches method [] ↔ (e.segs = [] && eqIgnoreAsciiCase e.method method) = true := by
  simp [Stored.Matches, and_comm, List.forall₂_nil_right_iff]

/-- A walk finds nothing exactly where nothing matches. -/
theorem lookup_eq_none_iff {method : Text} {segs : List Text} {rs : List (Stored H)} :
    lookup method segs (Node.build rs) = none ↔ ∀ e ∈ rs, ¬ e.Matches method segs := by
  induction segs generalizing rs with
  | nil => simp only [lookup_nil, Option.map_eq_none_iff, List.find?_eq_none, matches_nil]
  | cons seg rest ih =>
    rw [lookup_build_cons, Option.or_eq_none_iff, ih, ih, paramRoutes_eq]
    constructor
    · rintro ⟨hs, hb⟩ e he hm
      obtain ⟨e', h | h⟩ := matches_cons hm
      · exact hs e' (List.mem_filterMap.mpr ⟨e, he, h⟩) ((matches_under h).mp hm)
      · exact hb e' (List.mem_filterMap.mpr ⟨e, he, h⟩) ((matches_below h).mp hm)
    · intro h
      constructor
      · intro e' he' hm
        obtain ⟨e, he, hu⟩ := List.mem_filterMap.mp he'
        exact h e he ((matches_under hu).mpr hm)
      · intro e' he' hm
        obtain ⟨e, he, hb⟩ := List.mem_filterMap.mp he'
        exact h e he ((matches_below hb).mpr hm)

/-- Of the routes that match, the first registered of least rank. -/
abbrev Chosen (method : Text) (segs : List Text) (rs : List (Stored H)) (e : Stored H) : Prop :=
  FirstLeast (Stored.Matches method segs) (fun e => rank e.segs) rs e

theorem chosen_here {method : Text} {rs : List (Stored H)} {e : Stored H}
    (hf : rs.find? (fun e => e.segs = [] && eqIgnoreAsciiCase e.method method) = some e) :
    Chosen method [] rs e := by
  obtain ⟨hm, pre, post, rfl, hpre⟩ := List.find?_eq_some_iff_append.mp hf
  have hnil : rank e.segs = [] := by
    simp only [Bool.and_eq_true, decide_eq_true_eq] at hm
    rw [hm.1]
    rfl
  refine ⟨pre, post, rfl, matches_nil.2 hm, fun y hy hok => ?_, fun y hy hok => ?_⟩
  · have hnot := hpre y hy
    rw [matches_nil.1 hok] at hnot
    simp at hnot
  · simpa only [hnil] using not_lt.mp (List.not_lt_nil (rank y.segs))

/-- A choice below a child is a choice at the node, where no other route ranks before those below
the child. -/
theorem Chosen.of_child {method seg : Text} {rest : List Text} {rs : List (Stored H)}
    {e' : Stored H} {f : Stored H → Option (Stored H)} {b : Bool}
    (hmatch : ∀ {e e'}, f e = some e' → (e.Matches method (seg :: rest) ↔ e'.Matches method rest))
    (hrank : ∀ {e e'}, f e = some e' → rank e.segs = b :: rank e'.segs)
    (hout : ∀ x x', f x = some x' → ∀ y ∈ rs, f y = none → y.Matches method (seg :: rest) →
      rank x.segs < rank y.segs ∧ rank x.segs ≤ rank y.segs)
    (h : Chosen method rest (rs.filterMap f) e') :
    ∃ e, f e = some e' ∧ Chosen method (seg :: rest) rs e := by
  refine h.of_filterMap (fun x _ x' hx => hmatch hx) (fun x x' y y' hx hy hlt => ?_)
    (fun x x' y y' hx hy hle => ?_) hout
  · rw [hrank hx, hrank hy]
    exact rank_lt_cons b hlt
  · rw [hrank hx, hrank hy]
    exact rank_le_cons b hle

/-- A walk finds the first registered of the matching routes of least rank. -/
theorem lookup_firstLeast {method : Text} {segs : List Text} {rs : List (Stored H)} {h : H}
    (hl : lookup method segs (Node.build rs) = some h) :
    ∃ e, Chosen method segs rs e ∧ e.handler = h := by
  induction segs generalizing rs with
  | nil =>
    rw [lookup_nil, Option.map_eq_some_iff] at hl
    obtain ⟨e, hf, rfl⟩ := hl
    exact ⟨e, chosen_here hf, rfl⟩
  | cons seg rest ih =>
    rw [lookup_build_cons, Option.or_eq_some_iff, paramRoutes_eq] at hl
    rcases hl with hl | ⟨hn, hl⟩
    · obtain ⟨e', he', rfl⟩ := ih hl
      obtain ⟨e, hu, he⟩ := he'.of_child matches_under rank_under fun x x' hx y _ hy hoky => by
        obtain ⟨y', hu | hb⟩ := matches_cons hoky
        · simp [hu] at hy
        · rw [rank_under hx, rank_below hb]
          exact rank_static_param _ _
      obtain ⟨rfl, _⟩ := under_eq_some_iff.1 hu
      exact ⟨_, he, rfl⟩
    · obtain ⟨e', he', rfl⟩ := ih hl
      have hstatic := lookup_eq_none_iff.1 hn
      obtain ⟨e, hb, he⟩ := he'.of_child matches_below rank_below fun x x' hx y hmem hy hoky => by
        obtain ⟨y', hu | hb⟩ := matches_cons hoky
        · exact absurd ((matches_under hu).mp hoky)
            (hstatic y' (List.mem_filterMap.mpr ⟨y, hmem, hu⟩))
        · simp [hb] at hy
      obtain ⟨p, rfl, _⟩ := below_eq_some_iff.1 hb
      exact ⟨_, he, rfl⟩

/-- The documented rule: the methods are equal ignoring ASCII case, and segment by segment the
pattern is a placeholder or the very text. -/
def Route.Matches (method path : Text) (r : Route H) : Prop :=
  eqIgnoreAsciiCase r.method method = true ∧
    List.Forall₂ segmentMatches (segments r.pattern) (segments path)

/-- The router answers where some route matches, with the first registered of the matching routes
whose pattern has its placeholders latest. -/
structure RoutesBySpec (u : UnicodeCase) (routes : List (Route H)) : Prop where
  found : ∀ method path, ((Router.ofRoutes u routes).find method path).isSome ↔
    ∃ r ∈ routes, r.Matches method path
  least : ∀ method path handler params,
    (Router.ofRoutes u routes).find method path = some (handler, params) →
    ∃ r, FirstLeast (Route.Matches method path) (fun r => rank (segments r.pattern)) routes r ∧
      r.handler = handler

theorem find_map_fst (u : UnicodeCase) (routes : List (Route H)) (method path : Text) :
    ((Router.ofRoutes u routes).find method path).map Prod.fst =
      lookup method (segments path) (Node.build (routes.map (storedOf u))) := by
  rw [← root_ofRoutes, ← walkSegs_fst method (segments path) _ Params.empty, Router.find,
    walk_eq_walkSegs]
  rcases walkSegs method (segments path) (Router.ofRoutes u routes).root .empty with ⟨_ | h, ps⟩ <;>
    rfl

/-- The stored method answers the requests that the registered one does. -/
def MethodKept (u : UnicodeCase) (method : Text) : Prop :=
  eqIgnoreAsciiCase (toUppercase u method) method = true

theorem eqIgnoreAsciiCase_iff {s t : Text} :
    eqIgnoreAsciiCase s t = true ↔ toAsciiLowercase s = toAsciiLowercase t := by
  simp [eqIgnoreAsciiCase]

theorem storedOf_matches {u : UnicodeCase} {r : Route H} (h : MethodKept u r.method)
    (method path : Text) :
    r.Matches method path ↔ (storedOf u r).Matches method (segments path) := by
  rw [MethodKept, eqIgnoreAsciiCase_iff] at h
  simp only [Route.Matches, Stored.Matches, storedOf, eqIgnoreAsciiCase_iff, h]

theorem segmentMatches_self (segs : List Text) : List.Forall₂ segmentMatches segs segs :=
  List.forall₂_same.mpr fun _ _ => .inr rfl

theorem toLower_ascii {c : Char} (h : c.toNat ≤ 127) : c.toLower.toNat ≤ 127 := by
  have hall : ∀ n ≤ 127, (Char.ofNat n).toLower.toNat ≤ 127 := by decide +kernel
  simpa using hall c.toNat h

/-- A method that some upper-cased method equals ignoring ASCII case keeps its own meaning. -/
theorem methodKept_of_eq {u : UnicodeCase} {s method : Text}
    (hs : ∀ c ∈ s, u.upper c = [c]) (h : toAsciiLowercase s = toAsciiLowercase method) :
    MethodKept u method := by
  rw [MethodKept, eqIgnoreAsciiCase_iff]
  induction method generalizing s with
  | nil => rfl
  | cons d method ih =>
    cases s with
    | nil => simp [toAsciiLowercase] at h
    | cons c s =>
      obtain ⟨hcd, hrest⟩ := List.cons.inj h
      have hm := ih (fun x hx => hs x (List.mem_cons_of_mem c hx)) hrest
      have hd : (u.upper d).map Char.toLower = [d.toLower] := by
        by_cases hascii : d.toNat ≤ 127
        · rw [u.ascii d hascii, List.map_singleton, Char.toLower_toUpper_eq_toLower]
        · have hlow : d.toLower = d := toLower_high (by omega)
          have hc : ¬ c.toNat ≤ 127 := fun hc => by
            have := toLower_ascii hc
            rw [hcd, hlow] at this
            omega
          rw [toLower_high (by omega), hlow] at hcd
          rw [← hcd, hs c (by simp), List.map_singleton]
      simp only [toAsciiLowercase, toUppercase, List.flatMap_cons, List.map_append, hd,
        List.map_cons, List.singleton_append] at hm ⊢
      rw [hm]

theorem toUppercase_fixed (u : UnicodeCase) (s : Text) :
    ∀ c ∈ toUppercase u s, u.upper c = [c] := by
  intro c hc
  obtain ⟨d, _, hd⟩ := List.mem_flatMap.mp hc
  exact u.fixed d c hd

/-- Routing follows its specification exactly where Unicode upper-casing keeps every registered
method's meaning. -/
theorem routesBySpec_iff (u : UnicodeCase) (routes : List (Route H)) :
    RoutesBySpec u routes ↔ ∀ r ∈ routes, MethodKept u r.method := by
  constructor
  · intro h r hr
    have hself : r.Matches r.method r.pattern :=
      ⟨eqIgnoreAsciiCase_iff.mpr rfl, segmentMatches_self _⟩
    have hfound := (h.found r.method r.pattern).mpr ⟨r, hr, hself⟩
    have hsome : lookup r.method (segments r.pattern) (Node.build (routes.map (storedOf u))) ≠
        none := by
      rw [← find_map_fst, Option.ne_none_iff_isSome, Option.isSome_map]
      exact hfound
    rw [Ne, lookup_eq_none_iff] at hsome
    simp only [not_forall, not_not] at hsome
    obtain ⟨e, he, hm⟩ := hsome
    obtain ⟨r', _, rfl⟩ := List.mem_map.mp he
    exact methodKept_of_eq (toUppercase_fixed u r'.method) (eqIgnoreAsciiCase_iff.mp hm.1)
  · intro h
    refine ⟨fun method path => ?_, fun method path handler params hf => ?_⟩
    · rw [← Option.isSome_map (f := Prod.fst), find_map_fst, ← not_iff_not,
        Option.not_isSome_iff_eq_none, lookup_eq_none_iff]
      simp only [List.mem_map, forall_exists_index, and_imp, forall_apply_eq_imp_iff₂, not_exists,
        not_and]
      exact forall₂_congr fun r hr => not_congr (storedOf_matches (h r hr) method path).symm
    · have hl := find_map_fst u routes method path
      rw [hf, Option.map_some] at hl
      obtain ⟨e, he, rfl⟩ := lookup_firstLeast hl.symm
      rw [← List.filterMap_eq_map] at he
      obtain ⟨r, hr, hleast⟩ : ∃ r, some (storedOf u r) = some e ∧
          FirstLeast (Route.Matches method path) (fun r => rank (segments r.pattern)) routes r :=
        he.of_filterMap
          (fun x hx x' hs => by
            cases Option.some.inj hs
            exact storedOf_matches (h x hx) method path)
          (fun x x' y y' hx hy hlt => by
            cases Option.some.inj hx
            cases Option.some.inj hy
            exact hlt)
          (fun x x' y y' hx hy hle => by
            cases Option.some.inj hx
            cases Option.some.inj hy
            exact hle)
          (fun x x' hx y _ hy => by simp at hy)
      cases Option.some.inj hr
      exact ⟨r, hleast, rfl⟩

/-- A method outside ASCII is upper-cased where it is registered but not where it is asked for. -/
theorem not_routesBySpec :
    ¬ ∀ (u : UnicodeCase) (routes : List (Route Unit)), RoutesBySpec u routes := by
  intro h
  have hfound := (h acuteCase [⟨['é'], ['/'], ()⟩]).found ['é'] ['/']
  have hmiss :
      ((Router.ofRoutes acuteCase [⟨['é'], ['/'], ()⟩]).find ['é'] ['/']).isSome = false := by
    decide +kernel
  rw [hmiss] at hfound
  have hfind := hfound.mpr ⟨_, List.mem_singleton.mpr rfl, by decide, segmentMatches_self _⟩
  exact absurd hfind (by simp)

end Kernway
