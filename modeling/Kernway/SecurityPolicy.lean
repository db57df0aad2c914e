import Kernway.RouterParams

namespace Kernway

/-- What a path requires. -/
inductive Access
  | permitAll
  | authenticated
  | hasRole (role : Text)
  | hasAnyRole (roles : List Text)
  | hasAuthority (authority : Text)
  | hasAnyAuthority (authorities : List Text)
  | denyAll
  deriving DecidableEq

/-- One rule; without a method it is for all of them. -/
structure Rule where
  method : Option Text
  pattern : Text
  access : Access

structure SecurityLayer where
  rules : List Rule
  default : Access
  loginRedirect : Option Text := none

/-- The patterns that match every path. -/
def catchAll (pattern : Text) : Bool := pattern == "**".toList || pattern == "/**".toList

/-- The path goes on past the prefix at a `/`. -/
def continues (pre path : Text) : Bool := pre.isPrefixOf path && path[pre.length]? == some '/'

def pathMatches (pattern path : Text) : Bool :=
  if catchAll pattern then true
  else match "/**".toList.isSuffixOf? pattern with
    | some pre => path == pre || continues pre path
    | none => match "/*".toList.isSuffixOf? pattern with
      | some pre =>
        if continues pre path then
          let rest := path.drop (pre.length + 1)
          rest != [] && !rest.contains '/'
        else false
      | none => pattern == path

/-- The rule is for requests of the method. -/
def Rule.isFor (rule : Rule) (method : Text) : Bool := rule.method.all (· == method)

def Rule.Matches (rule : Rule) (method path : Text) : Bool :=
  rule.isFor method && pathMatches rule.pattern path

def SecurityLayer.accessFor (layer : SecurityLayer) (method path : Text) : Access :=
  ((layer.rules.find? fun rule => rule.Matches method path).map Rule.access).getD layer.default

/-- What the requests of a method get that no narrower rule is for. -/
def SecurityLayer.fallback (layer : SecurityLayer) (method : Text) : Access :=
  ((layer.rules.find? fun rule => rule.isFor method && catchAll rule.pattern).map
    Rule.access).getD layer.default

/-- Some path reaches the rule behind the rules before it. -/
def SecurityLayer.Decides (layer : SecurityLayer) (method : Text) (rule : Rule) : Prop :=
  ∃ before after path, layer.rules = before ++ rule :: after ∧
    rule.Matches method path = true ∧ ∀ r ∈ before, r.Matches method path = false

/-- Two paths with the same segments that the router resolves to one route get the same access. -/
def SameAccess (H : Type) (u : UnicodeCase) (layer : SecurityLayer) : Prop :=
  ∀ (routes : List (Route H)) (method path path' : Text) (found : H × Params),
    (Router.ofRoutes u routes).find method path = some found →
    (Router.ofRoutes u routes).find method path' = some found → segments path = segments path' →
    layer.accessFor method path = layer.accessFor method path'

theorem accessFor_of_decides {layer : SecurityLayer} {method path : Text}
    {before after : List Rule} {rule : Rule} (hrules : layer.rules = before ++ rule :: after)
    (hmatch : rule.Matches method path = true)
    (hbefore : ∀ r ∈ before, r.Matches method path = false) :
    layer.accessFor method path = rule.access := by
  have hnone : before.find? (fun r => r.Matches method path) = none :=
    List.find?_eq_none.mpr fun r hr => by simp [hbefore r hr]
  rw [SecurityLayer.accessFor, hrules, List.find?_append, hnone, Option.none_or,
    List.find?_cons_of_pos (by exact hmatch)]
  rfl

theorem pathMatches_catchAll {pattern : Text} (h : catchAll pattern = true) (path : Text) :
    pathMatches pattern path = true := by
  rw [pathMatches, if_pos h]

/-- An access is the fallback or that of a rule which decides. -/
theorem accessFor_cases (layer : SecurityLayer) (method path : Text) :
    layer.accessFor method path = layer.fallback method ∨
      ∃ rule, layer.Decides method rule ∧ layer.accessFor method path = rule.access := by
  cases hf : layer.rules.find? (fun rule => rule.Matches method path) with
  | some rule =>
    right
    obtain ⟨hmatch, before, after, hrules, hbefore⟩ := List.find?_eq_some_iff_append.mp hf
    have hnot : ∀ r ∈ before, r.Matches method path = false := fun r hr => by
      simpa using hbefore r hr
    exact ⟨rule, ⟨before, after, path, hrules, hmatch, hnot⟩,
      accessFor_of_decides hrules hmatch hnot⟩
  | none =>
    left
    have hall : layer.rules.find? (fun rule => rule.isFor method && catchAll rule.pattern) =
        none := by
      refine List.find?_eq_none.mpr fun rule hrule hand => ?_
      obtain ⟨hfor, hcatch⟩ := Bool.and_eq_true_iff.mp hand
      refine List.find?_eq_none.mp hf rule hrule ?_
      rw [Rule.Matches, hfor, pathMatches_catchAll hcatch]
      rfl
    rw [SecurityLayer.accessFor, SecurityLayer.fallback, hf, hall]

theorem continues_slashes {pre : Text} {n : Nat} (hn : pre.length < n) (path : Text) :
    continues pre (List.replicate n '/' ++ path) = pre.isPrefixOf (List.replicate n '/') := by
  have hget : (List.replicate n '/' ++ path)[pre.length]? = some '/' := by
    rw [List.getElem?_append_left (by rwa [List.length_replicate]), List.getElem?_replicate,
      if_pos hn]
  have hle : pre.length ≤ (List.replicate n '/').length := by
    rw [List.length_replicate]
    omega
  rw [continues, hget, beq_self_eq_true, Bool.and_true, Bool.eq_iff_iff,
    List.isPrefixOf_iff_prefix, List.isPrefixOf_iff_prefix, List.prefix_iff_eq_take,
    List.prefix_iff_eq_take, List.take_append_of_le_length hle]

theorem stripped_length {suffix pattern pre : Text} (h : suffix.isSuffixOf? pattern = some pre) :
    pattern.length = pre.length + suffix.length := by
  rw [← List.append_eq_of_isSuffixOf?_eq_some h, List.length_append]

/-- A spelling with more leading slashes than the pattern is long shows the pattern nothing of
the path. -/
theorem pathMatches_slashes {pattern : Text} {n : Nat} (hn : pattern.length < n)
    (path path' : Text) :
    pathMatches pattern (List.replicate n '/' ++ path) =
      pathMatches pattern (List.replicate n '/' ++ path') := by
  have hlong : ∀ s p : Text, s.length < n → (List.replicate n '/' ++ p == s) = false := by
    intro s p hs
    rw [beq_eq_false_iff_ne]
    rintro rfl
    rw [List.length_append, List.length_replicate] at hs
    omega
  unfold pathMatches
  split
  next => rfl
  next =>
    cases hdeep : "/**".toList.isSuffixOf? pattern with
    | some pre =>
      have hlen := stripped_length hdeep
      have hpre : pre.length < n := by omega
      simp only [hlong pre _ hpre, continues_slashes hpre]
    | none =>
      cases hone : "/*".toList.isSuffixOf? pattern with
      | some pre =>
        have hlen : pattern.length = pre.length + 2 := stripped_length hone
        -- one more slash at least stands behind the prefix and its own slash
        have hrest : ∀ p, '/' ∈ (List.replicate n '/' ++ p).drop (pre.length + 1) := by
          intro p
          rw [List.drop_append_of_le_length (by rw [List.length_replicate]; omega),
            List.drop_replicate, List.mem_append, List.mem_replicate]
          exact .inl ⟨by omega, rfl⟩
        simp only [List.contains_iff_mem.mpr (hrest _), Bool.not_true, Bool.and_false, ite_self]
      | none =>
        simp only [Bool.beq_comm (a := pattern), hlong pattern _ hn]

/-- A path of one segment, without a slash, that is longer than the pattern is left to the
patterns for everything. -/
theorem pathMatches_bare {pattern path : Text} (hn : pattern.length < path.length)
    (hslash : '/' ∉ path) : pathMatches pattern path = catchAll pattern := by
  have hlong : ∀ s : Text, s.length ≤ pattern.length → (path == s) = false := by
    intro s hs
    rw [beq_eq_false_iff_ne]
    rintro rfl
    omega
  have hends : ∀ pre, continues pre path = false := by
    intro pre
    rw [continues, Bool.and_eq_false_iff]
    right
    rw [beq_eq_false_iff_ne]
    exact fun hget => hslash (List.mem_of_getElem? hget)
  unfold pathMatches
  split
  next hcatch => rw [hcatch]
  next hcatch =>
    rw [Bool.not_eq_true] at hcatch
    cases hdeep : "/**".toList.isSuffixOf? pattern with
    | some pre =>
      have hlen := stripped_length hdeep
      simp only [hlong pre (by omega), hends, hcatch, Bool.or_false]
    | none =>
      cases hone : "/*".toList.isSuffixOf? pattern with
      | some pre => simp only [hends, hcatch, Bool.false_eq_true, if_false]
      | none => simp only [Bool.beq_comm (a := pattern), hlong pattern le_rfl, hcatch]

theorem exists_longer_rule (layer : SecurityLayer) :
    ∃ n, ∀ rule ∈ layer.rules, rule.pattern.length < n := by
  obtain ⟨n, hn⟩ := exists_longer (layer.rules.map Rule.pattern)
  exact ⟨n, fun rule hrule => hn _ (List.mem_map_of_mem hrule)⟩

theorem accessFor_congr {layer : SecurityLayer} {method path path' : Text}
    (h : ∀ rule ∈ layer.rules, pathMatches rule.pattern path = pathMatches rule.pattern path') :
    layer.accessFor method path = layer.accessFor method path' := by
  have hfind : layer.rules.find? (fun rule => rule.Matches method path) =
      layer.rules.find? (fun rule => rule.Matches method path') :=
    List.find?_congr fun rule hrule => by rw [Rule.Matches, Rule.Matches, h rule hrule]
  rw [SecurityLayer.accessFor, SecurityLayer.accessFor, hfind]

theorem accessFor_bare {layer : SecurityLayer} {path : Text}
    (hn : ∀ rule ∈ layer.rules, rule.pattern.length < path.length) (hslash : '/' ∉ path)
    (method : Text) : layer.accessFor method path = layer.fallback method := by
  have hfind : layer.rules.find? (fun rule => rule.Matches method path) =
      layer.rules.find? (fun rule => rule.isFor method && catchAll rule.pattern) :=
    List.find?_congr fun rule hrule => by
      rw [Rule.Matches, pathMatches_bare (hn rule hrule) hslash]
  rw [SecurityLayer.accessFor, SecurityLayer.fallback, hfind]

theorem segments_slashes (n : Nat) (path : Text) :
    segments (List.replicate n '/' ++ path) = segments path := by
  induction n with
  | zero => rfl
  | succ n ih => rw [List.replicate_succ, List.cons_append, segments_slash, ih]

theorem find_isSome_iff {H : Type} (u : UnicodeCase) (routes : List (Route H))
    (method path : Text) : ((Router.ofRoutes u routes).find method path).isSome ↔
      ∃ r ∈ routes, (storedOf u r).Matches method (segments path) := by
  rw [← Option.isSome_map (f := Prod.fst), find_map_fst, Option.isSome_iff_ne_none, Ne,
    lookup_eq_none_iff]
  simp

theorem methodKept_of_find {H : Type} {u : UnicodeCase} {routes : List (Route H)}
    {method path : Text} (h : ((Router.ofRoutes u routes).find method path).isSome) :
    MethodKept u method := by
  obtain ⟨r, -, hmethod, -⟩ := (find_isSome_iff u routes method path).mp h
  exact methodKept_of_eq (toUppercase_fixed u r.method) (eqIgnoreAsciiCase_iff.mp hmethod)

theorem find_of_segments {H : Type} (router : Router H) (method : Text) {path path' : Text}
    (h : segments path = segments path') : router.find method path = router.find method path' := by
  rw [Router.find, Router.find, walk_eq_walkSegs, walk_eq_walkSegs, h]

/-- The route of a path itself resolves it. -/
theorem find_own_route {H : Type} {u : UnicodeCase} {method : Text} (h : MethodKept u method)
    (path : Text) (handler : H) :
    ((Router.ofRoutes u [⟨method, path, handler⟩]).find method path).isSome :=
  (find_isSome_iff ..).mpr ⟨_, List.mem_singleton.mpr rfl, h, segmentMatches_self _⟩

/-- Policy and router see the same paths exactly where the policy makes no difference between the
paths: every rule that decides some path carries the fallback's access. -/
theorem sameAccess_iff {H : Type} [Inhabited H] (u : UnicodeCase) (layer : SecurityLayer) :
    SameAccess H u layer ↔ ∀ method, MethodKept u method →
      ∀ rule, layer.Decides method rule → rule.access = layer.fallback method := by
  constructor
  · rintro h method hkept rule ⟨before, after, path, hrules, hmatch, hbefore⟩
    obtain ⟨n, hn⟩ := exists_longer_rule layer
    let bare : Text := List.replicate n 'x'
    have hbare : '/' ∉ bare := by simp [bare]
    have hspell : ∀ p, layer.accessFor method p =
        layer.accessFor method (List.replicate n '/' ++ p) := by
      intro p
      have hsegs := (segments_slashes n p).symm
      obtain ⟨found, hfound⟩ :=
        Option.isSome_iff_exists.mp (find_own_route hkept p (default : H))
      exact h _ method p _ found hfound (find_of_segments _ method hsegs ▸ hfound) hsegs
    calc rule.access
        = layer.accessFor method path := (accessFor_of_decides hrules hmatch hbefore).symm
      _ = layer.accessFor method (List.replicate n '/' ++ path) := hspell path
      _ = layer.accessFor method (List.replicate n '/' ++ bare) :=
        accessFor_congr fun rule hrule => pathMatches_slashes (hn rule hrule) path bare
      _ = layer.accessFor method bare := (hspell bare).symm
      _ = layer.fallback method := accessFor_bare (by simpa [bare] using hn) hbare method
  · intro h routes method path path' found hfind _ _
    have hfall : ∀ p, layer.accessFor method p = layer.fallback method := by
      intro p
      rcases accessFor_cases layer method p with heq | ⟨rule, hdecides, heq⟩
      · exact heq
      · rw [heq, h method (methodKept_of_find (by rw [hfind]; rfl)) rule hdecides]
    rw [hfall, hfall]

/-- Only administrators get below `/admin`, everyone anywhere else. -/
def adminPolicy : SecurityLayer :=
  ⟨[⟨none, "/admin/**".toList, .hasRole "ADMIN".toList⟩], .permitAll, none⟩

/-- A doubled slash reaches the handler of `/admin` without the role. -/
theorem not_sameAccess :
    ¬ ∀ (u : UnicodeCase) (layer : SecurityLayer), SameAccess Unit u layer := by
  intro h
  have hsegs : segments "/admin".toList = segments "//admin".toList := by decide +kernel
  obtain ⟨found, hfound⟩ := Option.isSome_iff_exists.mp
    (show ((Router.ofRoutes acuteCase [⟨"GET".toList, "/admin".toList, ()⟩]).find "GET".toList
      "/admin".toList).isSome by decide +kernel)
  have hsame := h acuteCase adminPolicy _ _ _ _ found hfound
    (find_of_segments _ _ hsegs ▸ hfound) hsegs
  exact absurd hsame (by decide +kernel)

end Kernway
