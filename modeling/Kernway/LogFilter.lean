import Kernway.Str

namespace Kernway.Log

/-- Severities, most severe first. -/
inductive Level
  | error
  | warn
  | info
  | debug
  | trace
  deriving DecidableEq

namespace Level

def rank : Level → Nat
  | error => 0
  | warn => 1
  | info => 2
  | debug => 3
  | trace => 4

instance : LE Level := ⟨fun a b => a.rank ≤ b.rank⟩

instance (a b : Level) : Decidable (a ≤ b) := inferInstanceAs (Decidable (a.rank ≤ b.rank))

def padded : Level → Text
  | error => "ERROR".toList
  | warn => "WARN ".toList
  | info => "INFO ".toList
  | debug => "DEBUG".toList
  | trace => "TRACE".toList

def name (level : Level) : Text := level.padded.rdropWhile isWhitespace

def parse (s : Text) : Option Level :=
  let lower := toAsciiLowercase (trim s)
  if lower = "error".toList then some error
  else if lower = "warn".toList ∨ lower = "warning".toList then some warn
  else if lower = "info".toList then some info
  else if lower = "debug".toList then some debug
  else if lower = "trace".toList then some trace
  else none

end Level

structure Filter where
  default : Level
  targets : List (Text × Level) := []

namespace Filter

variable (filter : Filter)

/-- The length of a string is the one of its bytes; the sort is stable. -/
def withTarget (target : Text) (level : Level) : Filter :=
  { filter with
    targets := (filter.targets ++ [(target, level)]).mergeSort fun a b =>
      decide ((encodeUtf8 b.1).length ≤ (encodeUtf8 a.1).length) }

/-- What one entry of the string sets; an entry that is not recognised sets nothing. -/
def withEntry (entry : Text) : Filter :=
  match cutAt '=' entry with
  | some (target, level) =>
    match Level.parse level with
    | some level => filter.withTarget (trim target) level
    | none => filter
  | none =>
    match Level.parse entry with
    | some level => { filter with default := level }
    | none => filter

def entries (spec : Text) : List Text :=
  ((spec.splitOn ',').map trim).filter fun entry => !entry.isEmpty

def parse (spec : Text) : Filter := (entries spec).foldl withEntry { default := .info }

def threshold (target : Text) : Level :=
  let found := filter.targets.find? fun t =>
    decide (target = t.1) || (t.1 ++ "::".toList).isPrefixOf target || t.1.isPrefixOf target
  (found.map Prod.snd).getD filter.default

def allows (target : Text) (level : Level) : Bool := decide (level ≤ filter.threshold target)

end Filter

/-- The target and the level of an override. -/
def override (entry : Text) : Option (Text × Level) :=
  (cutAt '=' entry).bind fun p => (Level.parse p.2).map fun level => (trim p.1, level)

def bareLevel (entry : Text) : Option Level := if '=' ∈ entry then none else Level.parse entry

/-- The overrides that a string configures, as they stand in it. -/
def overrides (spec : Text) : List (Text × Level) := (Filter.entries spec).filterMap override

/-- The last bare level of a string. -/
def defaultLevel (spec : Text) : Level :=
  (((Filter.entries spec).filterMap bareLevel).getLast?).getD .info

/-- The level of the longest of the targets that cover the record, of the first entry for it, or the
default where there is none. -/
def Chosen (covers : Text → Prop) (entries : List (Text × Level)) (default level : Level) : Prop :=
  (∀ e ∈ entries, ¬ covers e.1) ∧ level = default ∨
    ∃ target, covers target ∧ (∀ e ∈ entries, covers e.1 → e.1.length ≤ target.length) ∧
      entries.find? (fun e => decide (e.1 = target)) = some (target, level)

/-- A module is the other one, or contains it. -/
def Contains (module target : Text) : Prop :=
  module = target ∨ (module ++ "::".toList) <+: target

/-- How the targets of a filter stand to the overrides it has been given. -/
structure Filter.Orders (targets configured : List (Text × Level)) : Prop where
  longestFirst : targets.Pairwise fun a b => (encodeUtf8 b.1).length ≤ (encodeUtf8 a.1).length
  perm : targets.Perm configured
  stable : ∀ target, targets.filter (fun e => decide (e.1 = target)) =
    configured.filter fun e => decide (e.1 = target)

namespace Filter

variable {f : Filter} {configured : List (Text × Level)}

/-- A stable sort keeps the order of the entries for one target. -/
theorem orders_withTarget (h : Orders f.targets configured) (target : Text) (level : Level) :
    Orders (f.withTarget target level).targets (configured ++ [(target, level)]) := by
  have htrans : ∀ a b c : Text × Level,
      decide ((encodeUtf8 b.1).length ≤ (encodeUtf8 a.1).length) = true →
      decide ((encodeUtf8 c.1).length ≤ (encodeUtf8 b.1).length) = true →
      decide ((encodeUtf8 c.1).length ≤ (encodeUtf8 a.1).length) = true := by
    intro a b c hab hbc
    rw [decide_eq_true_iff] at hab hbc ⊢
    omega
  have htotal : ∀ a b : Text × Level,
      (decide ((encodeUtf8 b.1).length ≤ (encodeUtf8 a.1).length) ||
        decide ((encodeUtf8 a.1).length ≤ (encodeUtf8 b.1).length)) = true := by
    intro a b
    rw [Bool.or_eq_true, decide_eq_true_iff, decide_eq_true_iff]
    omega
  have hperm : (f.withTarget target level).targets.Perm
      (f.targets ++ [(target, level)]) := List.mergeSort_perm _ _
  refine ⟨?_, hperm.trans (h.perm.append_right _), fun p => ?_⟩
  · exact (List.pairwise_mergeSort htrans htotal _).imp of_decide_eq_true
  · have hsame : ((f.targets ++ [(target, level)]).filter fun e => decide (e.1 = p)).Sublist
        (f.withTarget target level).targets := by
      apply List.sublist_mergeSort htrans htotal
      · apply List.pairwise_of_forall_mem_list
        intro a ha b hb
        have ha' : a.1 = p := of_decide_eq_true (List.mem_filter.mp ha).2
        have hb' : b.1 = p := of_decide_eq_true (List.mem_filter.mp hb).2
        rw [ha', hb']
        exact decide_eq_true (Nat.le_refl _)
      · exact List.filter_sublist
    have hfilter := hsame.filter fun e => decide (e.1 = p)
    rw [List.filter_filter] at hfilter
    simp only [Bool.and_self] at hfilter
    have hlength := ((hperm.filter fun e => decide (e.1 = p)).length_eq).symm
    rw [← hfilter.eq_of_length hlength, List.filter_append, List.filter_append, h.stable]

theorem withEntry_of_override {entry : Text} {e : Text × Level} (h : override entry = some e) :
    f.withEntry entry = f.withTarget e.1 e.2 ∧ bareLevel entry = none := by
  obtain ⟨p, hcut, hlevel⟩ := Option.bind_eq_some_iff.mp h
  obtain ⟨level, hparse, rfl⟩ := Option.map_eq_some_iff.mp hlevel
  constructor
  · unfold withEntry
    rw [hcut]
    dsimp only
    rw [hparse]
  · have hmem : '=' ∈ entry := by
      by_contra hnot
      rw [cutAt_eq_none_iff.mpr hnot] at hcut
      cases hcut
    exact if_pos hmem

theorem withEntry_of_bare {entry : Text} (h : override entry = none) :
    f.withEntry entry =
      { f with default := (bareLevel entry).getD f.default } := by
  unfold withEntry bareLevel
  cases hcut : cutAt '=' entry with
  | none =>
    rw [if_neg (cutAt_eq_none_iff.mp hcut)]
    dsimp only
    cases Level.parse entry <;> rfl
  | some p =>
    have hmem : '=' ∈ entry := by
      by_contra hnot
      rw [cutAt_eq_none_iff.mpr hnot] at hcut
      cases hcut
    rw [if_pos hmem]
    dsimp only
    unfold override at h
    rw [hcut, Option.bind_some, Option.map_eq_none_iff] at h
    rw [h]
    rfl

theorem orders_foldl (h : Orders f.targets configured) (entries : List Text) :
    Orders (entries.foldl withEntry f).targets (configured ++ entries.filterMap override) ∧
      (entries.foldl withEntry f).default =
        ((entries.filterMap bareLevel).getLast?).getD f.default := by
  induction entries generalizing f configured with
  | nil => exact ⟨by simpa using h, rfl⟩
  | cons entry entries ih =>
    rw [List.foldl_cons]
    cases ho : override entry with
    | some e =>
      obtain ⟨hentry, hbare⟩ := withEntry_of_override (f := f) ho
      rw [hentry, List.filterMap_cons_some ho, List.filterMap_cons_none hbare]
      have hrest := ih (orders_withTarget h e.1 e.2)
      rw [List.append_assoc] at hrest
      exact hrest
    | none =>
      rw [withEntry_of_bare ho, List.filterMap_cons_none ho]
      have hrest := ih (f := { f with default := (bareLevel entry).getD f.default }) h
      refine ⟨hrest.1, hrest.2.trans ?_⟩
      cases hbare : bareLevel entry with
      | none =>
        rw [List.filterMap_cons_none hbare]
        rfl
      | some level =>
        rw [List.filterMap_cons_some hbare, List.getLast?_cons]
        rfl

theorem orders_parse (spec : Text) :
    Orders (parse spec).targets (overrides spec) ∧ (parse spec).default = defaultLevel spec :=
  orders_foldl (f := { default := .info }) ⟨.nil, .nil, fun _ => rfl⟩ (entries spec)

/-- Two of the three tests are cases of the third. -/
theorem covers_iff (t target : Text) :
    (decide (target = t) || (t ++ "::".toList).isPrefixOf target || t.isPrefixOf target) = true ↔
      t <+: target := by
  rw [Bool.or_eq_true, Bool.or_eq_true, decide_eq_true_iff, List.isPrefixOf_iff_prefix,
    List.isPrefixOf_iff_prefix]
  constructor
  · rintro ((rfl | h) | h)
    · exact List.prefix_refl target
    · exact (List.prefix_append t _).trans h
    · exact h
  · exact Or.inr

end Filter

/-- Of two texts that begin a third one, the longer in bytes is the longer in characters. -/
theorem length_le_of_bytes {s t target : Text} (hs : s <+: target) (ht : t <+: target)
    (h : (encodeUtf8 s).length ≤ (encodeUtf8 t).length) : s.length ≤ t.length := by
  by_contra hlt
  obtain ⟨rest, rfl⟩ := List.prefix_of_prefix_length_le ht hs (by omega)
  cases rest with
  | nil => simp at hlt
  | cons c rest =>
    have hpos : 0 < (String.utf8EncodeChar c).length :=
      List.length_pos_iff.mpr (utf8EncodeChar_ne_nil c)
    unfold encodeUtf8 at h
    rw [List.flatMap_append, List.flatMap_cons, List.length_append, List.length_append] at h
    omega

theorem Filter.chosen {filter : Filter} {configured : List (Text × Level)}
    (h : Filter.Orders filter.targets configured) (target : Text) :
    Chosen (· <+: target) configured filter.default (filter.threshold target) := by
  unfold Filter.threshold
  dsimp only
  cases hfind : filter.targets.find? fun t =>
      decide (target = t.1) || (t.1 ++ "::".toList).isPrefixOf target || t.1.isPrefixOf target with
  | none =>
    refine .inl ⟨fun e he hcovers => ?_, rfl⟩
    exact List.find?_eq_none.mp hfind e (h.perm.mem_iff.mpr he)
      ((Filter.covers_iff e.1 target).mpr hcovers)
  | some e =>
    obtain ⟨hcovers, before, after, htargets, hbefore⟩ := List.find?_eq_some_iff_append.mp hfind
    have hprefix := (Filter.covers_iff e.1 target).mp hcovers
    have hnot : ∀ x ∈ before, ¬ x.1 <+: target := by
      intro x hx hx'
      have hfalse := hbefore x hx
      rw [(Filter.covers_iff x.1 target).mpr hx'] at hfalse
      cases hfalse
    refine .inr ⟨e.1, hprefix, fun x hx hx' => ?_, ?_⟩
    · have hmem := h.perm.mem_iff.mpr hx
      have hsorted := h.longestFirst
      rw [htargets] at hmem hsorted
      rcases List.mem_append.mp hmem with hmem | hmem
      · exact absurd hx' (hnot x hmem)
      · rcases List.mem_cons.mp hmem with rfl | hmem
        · exact Nat.le_refl _
        · exact length_le_of_bytes hx' hprefix
            (List.rel_of_pairwise_cons (List.pairwise_append.mp hsorted).2.1 hmem)
    · rw [← List.head?_filter, ← h.stable, List.head?_filter]
      apply List.find?_eq_some_iff_append.mpr
      refine ⟨decide_eq_true rfl, before, after, htargets, fun x hx => ?_⟩
      have hne : x.1 ≠ e.1 := fun heq => hnot x hx (heq ▸ hprefix)
      rw [decide_eq_false hne]
      rfl

/-- The threshold is that of the longest target that the record's begins with, of its first entry,
and a record passes at most at that level. -/
theorem threshold_parse (spec target : Text) :
    Chosen (· <+: target) (overrides spec) (defaultLevel spec)
        ((Filter.parse spec).threshold target) ∧
      ∀ level, (Filter.parse spec).allows target level = true ↔
        level ≤ (Filter.parse spec).threshold target := by
  obtain ⟨horders, hdefault⟩ := Filter.orders_parse spec
  refine ⟨?_, fun level => decide_eq_true_iff⟩
  rw [← hdefault]
  exact Filter.chosen horders target

/-- A module with the same first letters, and two levels for one target. -/
theorem not_chosen_contains :
    ¬ Chosen (Contains · "kernway_web".toList) (overrides "kernway=warn".toList).reverse
        (defaultLevel "kernway=warn".toList)
        ((Filter.parse "kernway=warn".toList).threshold "kernway_web".toList) ∧
      ¬ Chosen (Contains · "a".toList) (overrides "a=warn,a=debug".toList).reverse
        (defaultLevel "a=warn,a=debug".toList)
        ((Filter.parse "a=warn,a=debug".toList).threshold "a".toList) := by
  constructor
  · have hover : overrides "kernway=warn".toList = [("kernway".toList, .warn)] := by decide
    have hlevel : (Filter.parse "kernway=warn".toList).threshold "kernway_web".toList = .warn := by
      decide +kernel
    rw [hover, hlevel]
    rintro (⟨_, hdefault⟩ | ⟨target, hcontains, _, hfind⟩)
    · exact absurd hdefault (by decide)
    · have hmem : (target, Level.warn) ∈ [("kernway".toList, Level.warn)].reverse :=
        List.mem_of_find?_eq_some hfind
      have htarget : target = "kernway".toList := by simpa using hmem
      rw [htarget] at hcontains
      exact absurd hcontains (by unfold Contains; decide)
  · have hover : overrides "a=warn,a=debug".toList = [(['a'], .warn), (['a'], .debug)] := by decide
    have hfirst : [(['a'], Level.warn), (['a'], .debug)].find? (fun e => decide (e.1 = ['a'])) =
        some (['a'], .warn) := by decide
    have htarget : ∀ {entries : List (Text × Level)} {target level},
        (∀ e ∈ entries, e.1 = ['a']) →
        entries.find? (fun e => decide (e.1 = target)) = some (target, level) → target = ['a'] :=
      fun hall hfind => hall _ (List.mem_of_find?_eq_some hfind)
    have hlevel : (Filter.parse "a=warn,a=debug".toList).threshold "a".toList = .warn := by
      have hchosen := Filter.chosen (Filter.orders_parse "a=warn,a=debug".toList).1 ['a']
      rw [hover] at hchosen
      rcases hchosen with ⟨hnone, _⟩ | ⟨target, _, _, hfind⟩
      · exact absurd (List.prefix_refl _) (hnone (['a'], .warn) (by decide))
      · rw [htarget (by decide) hfind, hfirst] at hfind
        exact (Prod.mk.inj (Option.some.inj hfind)).2.symm
    rw [hover, hlevel]
    rintro (⟨hnone, _⟩ | ⟨target, _, _, hfind⟩)
    · exact hnone (['a'], .warn) (by decide) (.inl rfl)
    · rw [htarget (by decide) hfind] at hfind
      exact absurd hfind (by decide)

end Kernway.Log
