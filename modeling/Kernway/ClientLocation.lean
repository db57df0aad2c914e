import Kernway.ClientUrl
import Kernway.Decimal
import Kernway.UriReference

namespace Kernway.HttpClient

/-- The host and the port of an authority, as `Url::parse` reads them. -/
def hostPort (scheme authority : Text) : Option (Text × UInt16) :=
  if authority = [] then none
  else
    match cutAtLast ':' authority with
    | some (host, port) => (parseU16 port).map fun port => (host, port)
    | none => some (authority, if scheme = https then 443 else 80)

def slashed (path : Text) : Text := if path = [] then ['/'] else path

def IsHttp (scheme : Text) : Prop :=
  toAsciiLowercase scheme = http ∨ toAsciiLowercase scheme = https

instance (scheme : Text) : Decidable (IsHttp scheme) := inferInstanceAs (Decidable (_ ∨ _))

/-- The URL that a reference is, if it is one of http or https. -/
def urlOf (r : Uri.Reference) : Option Url :=
  match r.scheme, r.authority with
  | some scheme, some authority =>
    if IsHttp scheme then
      (hostPort (toAsciiLowercase scheme) authority).map fun hp =>
        ⟨toAsciiLowercase scheme, hp.1, hp.2, slashed r.path ++ Uri.before ['?'] r.query⟩
    else none
  | _, _ => none

/-- The URL that RFC 3986 has for a location, against a URL as it was given. -/
def rfcTarget (text location : Text) : Option Url :=
  urlOf (Uri.resolve (Uri.split text) (Uri.split (trim location)))

/-- A query or a fragment stands directly behind the authority. -/
def Glued (r : Uri.Reference) : Prop := r.path = [] ∧ r.tail ≠ []

instance (r : Uri.Reference) : Decidable (Glued r) := inferInstanceAs (Decidable (_ ∧ _))

/-- `Url::parse` finds no host or no port. -/
def Rejected (scheme authority : Text) : Prop := hostPort (toAsciiLowercase scheme) authority = none

/-- The references that are resolved as the RFC has it. -/
def ResolvesRight (base r : Uri.Reference) (location : Text) : Prop :=
  match r.scheme, r.authority with
  | some scheme, some authority =>
    IsHttp scheme →
      if Glued r then
        Rejected scheme authority ∧ Rejected scheme ((authority ++ r.tail).takeWhile (· ≠ '/'))
      else Rejected scheme authority ∨ r.fragment = none ∧ Uri.DotFree r.path
  | some _, none => containsText location "://".toList = true
  | none, some authority =>
    containsText location "://".toList = true ∧ ∀ scheme ∈ base.scheme, Rejected scheme authority
  | none, none =>
    if Glued base then
      containsText location "://".toList = true ∧
        ∀ scheme ∈ base.scheme, ∀ authority ∈ base.authority, Rejected scheme authority
    else
      containsText location "://".toList = false ∧ r.fragment = none ∧
        if r.path = [] then
          if r.query = none then
            (slashed base.path ++ Uri.before ['?'] base.query).getLast? = some '/' ∧
              '/' ∉ Uri.before ['#'] base.fragment
          else (slashed base.path).getLast? = some '/' ∧ '/' ∉ base.tail
        else if r.path.head? = some '/' then Uri.DotFree r.path
        else '/' ∉ base.tail ∧ Uri.DotFree (Uri.directory base.path ++ r.path)

theorem directory_eq (path : Text) : directory path = Uri.directory path := by
  unfold directory Uri.directory cutAtLast
  cases cutAt '/' path.reverse <;> rfl

/-- `Url::parse`, with the errors left out. -/
theorem parse_toOption (url : Text) : (Url.parse url).toOption =
    match cutText "://".toList url with
    | none => none
    | some (scheme, rest) =>
      if IsHttp scheme then
        (hostPort (toAsciiLowercase scheme) (rest.takeWhile (· ≠ '/'))).map fun hp =>
          ⟨toAsciiLowercase scheme, hp.1, hp.2, slashed (rest.dropWhile (· ≠ '/'))⟩
      else none := by
  unfold Url.parse
  cases cutText "://".toList url with
  | none => rfl
  | some p =>
    obtain ⟨scheme, rest⟩ := p
    dsimp only
    by_cases hhttp : IsHttp scheme
    · have hnot : ¬ (toAsciiLowercase scheme ≠ http ∧ toAsciiLowercase scheme ≠ https) := by
        rintro ⟨hne, hne'⟩
        exact hhttp.elim hne hne'
      rw [if_neg hnot, if_pos hhttp]
      unfold hostPort
      by_cases hnil : rest.takeWhile (· ≠ '/') = []
      · rw [if_pos hnil, if_pos hnil]
        rfl
      · rw [if_neg hnil, if_neg hnil]
        cases cutAtLast ':' (rest.takeWhile (· ≠ '/')) with
        | none => rfl
        | some cut =>
          dsimp only
          cases parseU16 cut.2 <;> rfl
    · have hnot : toAsciiLowercase scheme ≠ http ∧ toAsciiLowercase scheme ≠ https :=
        ⟨fun h => hhttp (.inl h), fun h => hhttp (.inr h)⟩
      rw [if_pos hnot, if_neg hhttp]
      rfl

/-- The letters of the two schemes end no scheme. -/
theorem scheme_of_isHttp {scheme : Text} (h : IsHttp scheme) :
    scheme ≠ [] ∧ ∀ c ∈ scheme, Uri.endsScheme c = false := by
  have hplain : ∀ c ∈ toAsciiLowercase scheme, Uri.endsScheme c = false := by
    have hall : ∀ s ∈ [http, https], (s.all fun c => !Uri.endsScheme c) = true := by decide
    have hmem : toAsciiLowercase scheme ∈ [http, https] := by
      rcases h with h | h <;> rw [h] <;> decide
    intro c hc
    simpa using List.all_eq_true.mp (hall _ hmem) c hc
  constructor
  · rintro rfl
    exact absurd h (by decide)
  · intro c hc
    by_contra hends
    have hlower : c.toLower = c := by
      have hfour : c = ':' ∨ c = '/' ∨ c = '?' ∨ c = '#' := by
        unfold Uri.endsScheme at hends
        simp only [Bool.not_eq_false, Bool.or_eq_true, beq_iff_eq, or_assoc] at hends
        exact hends
      rcases hfour with rfl | rfl | rfl | rfl <;> decide
    have hmem : c ∈ toAsciiLowercase scheme := by
      rw [← hlower]
      exact List.mem_map_of_mem hc
    exact hends (hplain c hmem)

theorem cutText_scheme {scheme : Text} (h : ':' ∉ scheme) (rest : Text) :
    cutText "://".toList (scheme ++ ':' :: '/' :: '/' :: rest) = some (scheme, rest) := by
  induction scheme with
  | nil => rfl
  | cons c scheme ih =>
    have hc : c ≠ ':' := fun hc => h (hc ▸ List.mem_cons_self ..)
    have hpre : "://".toList.isPrefixOf (c :: (scheme ++ ':' :: '/' :: '/' :: rest)) = false := by
      show (':' == c && _) = false
      rw [beq_eq_false_iff_ne.mpr (Ne.symm hc), Bool.false_and]
    rw [List.cons_append, cutText, if_neg (by rw [hpre]; exact Bool.false_ne_true),
      ih fun hmem => h (List.mem_cons_of_mem c hmem)]
    rfl

theorem colon_of_endsScheme {scheme : Text} (h : ∀ c ∈ scheme, Uri.endsScheme c = false) :
    ':' ∉ scheme :=
  fun hmem => absurd (h ':' hmem) (by decide)

/-- A text with a scheme and an authority, as it is cut at its first `://`. -/
theorem cutText_text {r : Uri.Reference} (hr : r.WellFormed) {scheme authority : Text}
    (hscheme : r.scheme = some scheme) (hauthority : r.authority = some authority) :
    cutText "://".toList r.text = some (scheme, authority ++ (r.path ++ r.tail)) := by
  have htext : r.text = scheme ++ ':' :: '/' :: '/' :: (authority ++ (r.path ++ r.tail)) := by
    unfold Uri.Reference.text Uri.Reference.hierarchy
    rw [hscheme, hauthority]
    rfl
  rw [htext]
  exact cutText_scheme (colon_of_endsScheme (hr.scheme scheme hscheme).2) _

/-- What is cut at a `://` behind one of the two schemes has that scheme and an authority. -/
theorem split_of_cutText {t scheme rest : Text} (hcut : cutText "://".toList t = some (scheme, rest))
    (h : IsHttp scheme) : (Uri.split t).scheme = some scheme ∧ (Uri.split t).authority.isSome := by
  obtain ⟨hne, hends⟩ := scheme_of_isHttp h
  have htext : t = scheme ++ ':' :: '/' :: '/' :: rest := by
    rw [cutText_eq_some hcut, List.append_assoc]
    rfl
  have hsplit : Uri.splitScheme t = (some scheme, '/' :: '/' :: rest) := by
    rw [htext]
    exact Uri.splitScheme_of hne hends _
  constructor
  · show (Uri.splitScheme t).1 = some scheme
    rw [hsplit]
  · show (Uri.splitAuthority (Uri.splitScheme t).2).1.isSome = true
    rw [hsplit]
    rfl

/-- `Url::parse` of what has no scheme or no authority. -/
theorem parse_not_absolute {t : Text}
    (h : (Uri.split t).scheme = none ∨ (Uri.split t).authority = none) :
    (Url.parse t).toOption = none := by
  rw [parse_toOption]
  cases hcut : cutText "://".toList t with
  | none => rfl
  | some p =>
    obtain ⟨scheme, rest⟩ := p
    dsimp only
    apply if_neg
    intro hhttp
    obtain ⟨hscheme, hauthority⟩ := split_of_cutText hcut hhttp
    rcases h with h | h
    · rw [h] at hscheme
      cases hscheme
    · rw [h] at hauthority
      cases hauthority

theorem tail_head {r : Uri.Reference} {c : Char} {rest : Text} (h : r.tail = c :: rest) :
    c = '?' ∨ c = '#' := by
  unfold Uri.Reference.tail at h
  cases hq : r.query with
  | some q =>
    rw [hq] at h
    cases h
    exact .inl rfl
  | none =>
    rw [hq] at h
    cases hf : r.fragment with
    | some f =>
      rw [hf] at h
      cases h
      exact .inr rfl
    | none =>
      rw [hf] at h
      cases h

/-- Where no query or fragment stands behind the authority, it ends where the path begins. -/
theorem cut_at_path {r : Uri.Reference} (hr : r.WellFormed) {authority : Text}
    (hauthority : r.authority = some authority) (hglued : ¬ Glued r) :
    (authority ++ (r.path ++ r.tail)).takeWhile (· ≠ '/') = authority ∧
      slashed ((authority ++ (r.path ++ r.tail)).dropWhile (· ≠ '/')) = slashed r.path ++ r.tail := by
  have hall : ∀ c ∈ authority, decide (c ≠ '/') = true := by
    intro c hc
    apply decide_eq_true
    rintro rfl
    exact absurd (hr.authority authority hauthority '/' hc) (by decide)
  rw [List.takeWhile_append_of_pos hall, List.dropWhile_append_of_pos hall]
  rcases hr.rooted (by rw [hauthority]; rfl) with hpath | hpath
  · have htail : r.tail = [] := by
      by_contra hne
      exact hglued ⟨hpath, hne⟩
    rw [hpath, htail]
    exact ⟨List.append_nil authority, rfl⟩
  · obtain ⟨path, hpath'⟩ := List.head?_eq_some_iff.mp hpath
    rw [hpath', List.cons_append, List.takeWhile_cons_of_neg (by decide),
      List.dropWhile_cons_of_neg (by decide), List.append_nil]
    exact ⟨rfl, rfl⟩

/-- The host that is found in an authority is a part of it. -/
theorem mem_of_hostPort {scheme authority : Text} {hp : Text × UInt16}
    (h : hostPort scheme authority = some hp) {c : Char} (hc : c ∈ hp.1) : c ∈ authority := by
  unfold hostPort at h
  split at h
  next => cases h
  next =>
    split at h
    next host port hcut =>
      obtain ⟨port', _, rfl⟩ := Option.map_eq_some_iff.mp h
      obtain ⟨cut, hcut', hpair⟩ := Option.map_eq_some_iff.mp hcut
      obtain ⟨rfl, rfl⟩ := Prod.mk.inj hpair
      have htext := (cutAt_eq_some_iff.mp hcut').1
      rw [← List.mem_reverse, htext]
      exact List.mem_append_right _ (List.mem_cons_of_mem _ (List.mem_reverse.mp hc))
    next =>
      cases h
      exact hc

theorem marks_of_parseU16 {s : Text} {port : UInt16} (h : parseU16 s = some port) :
    '?' ∉ s ∧ '#' ∉ s := by
  obtain ⟨n, hn⟩ : ∃ n, parseUsize s = some n := by
    unfold parseU16 at h
    split at h
    next n hn => exact ⟨n, hn⟩
    next => cases h
  exact ⟨notMem_of_parseUsize hn (by decide) (by decide),
    notMem_of_parseUsize hn (by decide) (by decide)⟩

/-- A question mark or a number sign in an authority that is not rejected is in the host. -/
theorem mark_of_hostPort {scheme authority : Text} {hp : Text × UInt16}
    (h : hostPort scheme authority = some hp) {c : Char} (hmark : c = '?' ∨ c = '#')
    (hc : c ∈ authority) : c ∈ hp.1 := by
  unfold hostPort at h
  split at h
  next => cases h
  next =>
    split at h
    next host port hcut =>
      obtain ⟨port', hport, rfl⟩ := Option.map_eq_some_iff.mp h
      obtain ⟨cut, hcut', hpair⟩ := Option.map_eq_some_iff.mp hcut
      obtain ⟨rfl, rfl⟩ := Prod.mk.inj hpair
      have htext := (cutAt_eq_some_iff.mp hcut').1
      rw [← List.mem_reverse, htext] at hc
      rcases List.mem_append.mp hc with hc | hc
      · have hmarks := marks_of_parseU16 hport
        rcases hmark with rfl | rfl
        · exact absurd (List.mem_reverse.mpr hc) hmarks.1
        · exact absurd (List.mem_reverse.mpr hc) hmarks.2
      · rcases List.mem_cons.mp hc with rfl | hc
        · exact absurd hmark (by decide)
        · exact List.mem_reverse.mpr hc
    next =>
      cases h
      exact hc

theorem parse_split {t scheme authority : Text} (hscheme : (Uri.split t).scheme = some scheme)
    (hauthority : (Uri.split t).authority = some authority) :
    (Url.parse t).toOption =
      if IsHttp scheme then
        (hostPort (toAsciiLowercase scheme)
          ((authority ++ ((Uri.split t).path ++ (Uri.split t).tail)).takeWhile (· ≠ '/'))).map
          fun hp => ⟨toAsciiLowercase scheme, hp.1, hp.2,
            slashed ((authority ++ ((Uri.split t).path ++ (Uri.split t).tail)).dropWhile (· ≠ '/'))⟩
      else none := by
  have hcut := cutText_text (Uri.wellFormed_split t) hscheme hauthority
  rw [Uri.text_split] at hcut
  rw [parse_toOption, hcut]

/-- What stands behind an authority up to the first slash, where it is no path. -/
theorem mark_of_glued {r : Uri.Reference} (hr : r.WellFormed) {authority : Text}
    (hauthority : r.authority = some authority) (hglued : Glued r) :
    ∃ c, (c = '?' ∨ c = '#') ∧ c ∉ authority ∧
      c ∈ (authority ++ (r.path ++ r.tail)).takeWhile (· ≠ '/') := by
  obtain ⟨hpath, htail⟩ := hglued
  obtain ⟨c, rest, hcons⟩ := List.exists_cons_of_ne_nil htail
  have hmark := tail_head hcons
  have hends : Uri.endsAuthority c = true := by
    rcases hmark with rfl | rfl <;> decide
  have hslash : c ≠ '/' := by
    rcases hmark with rfl | rfl <;> decide
  have hall : ∀ c ∈ authority, decide (c ≠ '/') = true := by
    intro c hc
    apply decide_eq_true
    rintro rfl
    exact absurd (hr.authority authority hauthority '/' hc) (by decide)
  refine ⟨c, hmark, fun hc => ?_, ?_⟩
  · rw [hr.authority authority hauthority c hc] at hends
    cases hends
  · rw [hpath, hcons, List.nil_append, List.takeWhile_append_of_pos hall,
      List.takeWhile_cons_of_pos (p := fun c => decide (c ≠ '/')) (decide_eq_true hslash)]
    exact List.mem_append_right _ (List.mem_cons_self ..)

/-- The text of a URL that the client accepts. -/
structure Accepted (r : Uri.Reference) (base : Url) (s a : Text) : Prop where
  scheme : r.scheme = some s
  authority : r.authority = some a
  isHttp : IsHttp s
  lower : base.scheme = toAsciiLowercase s
  plain : ¬ Glued r → hostPort (toAsciiLowercase s) a = some (base.host, base.port) ∧
    base.pathAndQuery = slashed r.path ++ r.tail
  glued : Glued r → ∃ c, c ∉ a ∧ c ∈ base.host

theorem accepted_of_parse {text : Text} {base : Url} (h : Url.parse text = .ok base) :
    ∃ scheme authority, Accepted (Uri.split text) base scheme authority := by
  have hopt : (Url.parse text).toOption = some base := by rw [h]; rfl
  have hwell := Uri.wellFormed_split text
  obtain ⟨scheme, hscheme⟩ : ∃ scheme, (Uri.split text).scheme = some scheme := by
    apply Option.ne_none_iff_exists'.mp
    intro hnone
    rw [parse_not_absolute (.inl hnone)] at hopt
    cases hopt
  obtain ⟨authority, hauthority⟩ : ∃ authority, (Uri.split text).authority = some authority := by
    apply Option.ne_none_iff_exists'.mp
    intro hnone
    rw [parse_not_absolute (.inr hnone)] at hopt
    cases hopt
  rw [parse_split hscheme hauthority] at hopt
  split at hopt
  next hhttp =>
    obtain ⟨hp, hhost, rfl⟩ := Option.map_eq_some_iff.mp hopt
    refine ⟨scheme, authority, hscheme, hauthority, hhttp, rfl, fun hplain => ?_, fun hglued => ?_⟩
    · obtain ⟨htake, hdrop⟩ := cut_at_path hwell hauthority hplain
      rw [htake] at hhost
      exact ⟨hhost, hdrop⟩
    · obtain ⟨c, hmark, hnot, hmem⟩ := mark_of_glued hwell hauthority hglued
      exact ⟨c, hnot, mark_of_hostPort hhost hmark hmem⟩
  next => cases hopt

theorem head_slashed {path : Text} (h : path = [] ∨ path.head? = some '/') :
    (slashed path).head? = some '/' := by
  unfold slashed
  split
  next => rfl
  next hne => exact h.resolve_left hne

theorem endsPath_removeDotSegments {path : Text} (hpath : ∀ c ∈ path, Uri.endsPath c = false) :
    ∀ c ∈ Uri.removeDotSegments path, Uri.endsPath c = false := by
  intro c hc
  cases hends : Uri.endsPath c with
  | false => rfl
  | true =>
    have hslash : c ≠ '/' := by
      rintro rfl
      exact absurd hends (by decide)
    have hnot : c ∉ path := fun hmem => by
      rw [hpath c hmem] at hends
      cases hends
    exact absurd hc (Uri.notMem_removeDotSegments hslash hnot)

/-- No mark of a query or a fragment is in a path that the RFC makes. -/
theorem notMem_slashed {path : Text} (hpath : ∀ c ∈ path, Uri.endsPath c = false) {c : Char}
    (hc : Uri.endsPath c = true) : c ∉ slashed path := by
  intro hmem
  unfold slashed at hmem
  split at hmem
  next =>
    rw [List.mem_singleton.mp hmem] at hc
    exact absurd hc (by decide)
  next =>
    rw [hpath c hmem] at hc
    cases hc

theorem sharp_notMem_query {r : Uri.Reference} (hr : r.WellFormed) :
    '#' ∉ Uri.before ['?'] r.query := by
  cases hq : r.query with
  | none => exact List.not_mem_nil
  | some q =>
    intro hmem
    rcases List.mem_cons.mp hmem with h | h
    · cases h
    · exact hr.query q hq h

theorem tail_of_fragment_none {r : Uri.Reference} (h : r.fragment = none) :
    r.tail = Uri.before ['?'] r.query := by
  unfold Uri.Reference.tail
  rw [h]
  exact List.append_nil _

theorem sharp_mem_tail {r : Uri.Reference} (h : r.fragment ≠ none) : '#' ∈ r.tail := by
  obtain ⟨f, hf⟩ := Option.ne_none_iff_exists'.mp h
  unfold Uri.Reference.tail
  rw [hf]
  exact List.mem_append_right _ (List.mem_cons_self ..)

/-- What the code keeps of a path, and what the RFC makes of it. -/
theorem path_iff {r : Uri.Reference} (hr : r.WellFormed)
    (hpath : r.path = [] ∨ r.path.head? = some '/') :
    slashed r.path ++ r.tail =
        slashed (Uri.removeDotSegments r.path) ++ Uri.before ['?'] r.query ↔
      r.fragment = none ∧ Uri.DotFree r.path := by
  by_cases hfragment : r.fragment = none
  · rw [tail_of_fragment_none hfragment, List.append_cancel_right_eq, and_iff_right hfragment,
      ← Uri.removeDotSegments_eq_iff hpath]
    rcases hpath with hnil | hhead
    · rw [hnil]
      exact iff_of_true rfl rfl
    · have hne : r.path ≠ [] := by
        intro hnil
        rw [hnil] at hhead
        cases hhead
      have hne' : Uri.removeDotSegments r.path ≠ [] := by
        intro hnil
        have hhead' := Uri.head_removeDotSegments hhead
        rw [hnil] at hhead'
        cases hhead'
      unfold slashed
      rw [if_neg hne, if_neg hne']
      exact eq_comm
  · refine iff_of_false (fun heq => ?_) fun h => hfragment h.1
    have hmem : '#' ∈ slashed r.path ++ r.tail :=
      List.mem_append_right _ (sharp_mem_tail hfragment)
    rw [heq, List.mem_append] at hmem
    exact hmem.elim (notMem_slashed (endsPath_removeDotSegments hr.path) (by decide))
      (sharp_notMem_query hr)

/-- The directory of what the code holds of a path and what follows it. -/
theorem directory_iff {path tail : Text} (h : path.head? = some '/') :
    Uri.directory (path ++ tail) = path ↔ path.getLast? = some '/' ∧ '/' ∉ tail := by
  by_cases htail : '/' ∈ tail
  · refine iff_of_false (fun heq => ?_) fun h => h.2 htail
    obtain ⟨inner, outer, _, hdir⟩ := Uri.directory_append_slash path htail
    rw [heq] at hdir
    have hlength := congrArg List.length hdir
    simp at hlength
  · rw [Uri.directory_append h htail, Uri.directory_eq_self_iff h, and_iff_left htail]

/-- `resolve_location` of a text without white space around it, with the errors left out. -/
def resolved (base : Url) (loc : Text) : Option Url :=
  if containsText loc "://".toList then (Url.parse loc).toOption
  else if loc.head? = some '/' then some { base with pathAndQuery := loc }
  else some { base with pathAndQuery := Uri.directory base.pathAndQuery ++ loc }

theorem resolveLocation_toOption (base : Url) (location : Text) :
    (resolveLocation base location).toOption = resolved base (trim location) := by
  unfold resolveLocation resolved
  dsimp only
  split
  next => rfl
  next =>
    split
    next => rfl
    next =>
      rw [directory_eq]
      rfl

theorem map_eq_map_iff {α β : Type} {o : Option α} {f g : α → β} :
    o.map f = o.map g ↔ o = none ∨ ∃ a, o = some a ∧ f a = g a := by
  cases o with
  | none => simp
  | some a => simp

section

variable {base : Url} {b r : Uri.Reference} {s a : Text} {loc : Text}

/-- A location with a scheme and an authority. -/
theorem absolute_iff {scheme authority : Text} (hr : Uri.split loc = r)
    (hscheme : r.scheme = some scheme) (hauthority : r.authority = some authority) :
    resolved base loc = urlOf (Uri.resolve b r) ↔ ResolvesRight b r loc := by
  subst hr
  have hwell := Uri.wellFormed_split loc
  have hcontains : containsText loc "://".toList = true := by
    have hcut := cutText_text hwell hscheme hauthority
    rw [Uri.text_split] at hcut
    unfold containsText
    rw [hcut]
    rfl
  have hrfc : urlOf (Uri.resolve b (Uri.split loc)) =
      if IsHttp scheme then
        (hostPort (toAsciiLowercase scheme) authority).map fun hp =>
          ⟨toAsciiLowercase scheme, hp.1, hp.2,
            slashed (Uri.removeDotSegments (Uri.split loc).path) ++
              Uri.before ['?'] (Uri.split loc).query⟩
      else none := by
    unfold Uri.resolve
    rw [if_pos (by rw [hscheme]; rfl)]
    unfold urlOf
    simp only [hscheme, hauthority]
  have hcondition : ResolvesRight b (Uri.split loc) loc ↔ (IsHttp scheme →
      if Glued (Uri.split loc) then
        Rejected scheme authority ∧
          Rejected scheme ((authority ++ (Uri.split loc).tail).takeWhile (· ≠ '/'))
      else Rejected scheme authority ∨
        (Uri.split loc).fragment = none ∧ Uri.DotFree (Uri.split loc).path) := by
    unfold ResolvesRight
    simp only [hscheme, hauthority]
  unfold resolved
  rw [if_pos hcontains, parse_split hscheme hauthority, hrfc, hcondition]
  by_cases hhttp : IsHttp scheme
  · rw [if_pos hhttp, if_pos hhttp]
    by_cases hglued : Glued (Uri.split loc)
    · obtain ⟨c, hmark, hnot, hmem⟩ := mark_of_glued hwell hauthority hglued
      have htail : (Uri.split loc).path ++ (Uri.split loc).tail = (Uri.split loc).tail := by
        rw [hglued.1, List.nil_append]
      rw [if_pos hglued]
      rw [htail] at hmem ⊢
      constructor
      · intro heq _
        cases hright : hostPort (toAsciiLowercase scheme) authority with
        | none =>
          rw [hright] at heq
          exact ⟨hright, Option.map_eq_none_iff.mp heq⟩
        | some hp =>
          rw [hright] at heq
          obtain ⟨hp', hleft, hurl⟩ := Option.map_eq_some_iff.mp heq
          have hhost : hp'.1 = hp.1 := (Url.mk.inj hurl).2.1
          have hin := mark_of_hostPort hleft hmark hmem
          rw [hhost] at hin
          exact absurd (mem_of_hostPort hright hin) hnot
      · intro h
        obtain ⟨hright, hleft⟩ := h hhttp
        unfold Rejected at hright hleft
        rw [hright, hleft]
        rfl
    · obtain ⟨htake, hdrop⟩ := cut_at_path hwell hauthority hglued
      rw [if_neg hglued, htake, hdrop, map_eq_map_iff]
      constructor
      · rintro (hnone | ⟨hp, _, heq⟩) _
        · exact .inl hnone
        · right
          have hpath := (Url.mk.inj heq).2.2.2
          exact (path_iff hwell (hwell.rooted (by rw [hauthority]; rfl))).mp hpath
      · intro h
        cases hhost : hostPort (toAsciiLowercase scheme) authority with
        | none => exact .inl rfl
        | some hp =>
          have hpath := (h hhttp).resolve_left fun hnone => by
            unfold Rejected at hnone
            rw [hhost] at hnone
            cases hnone
          refine .inr ⟨hp, rfl, ?_⟩
          rw [(path_iff hwell (hwell.rooted (by rw [hauthority]; rfl))).mpr hpath]
  · rw [if_neg hhttp, if_neg hhttp]
    exact iff_of_true rfl fun h => absurd h hhttp

/-- What the code makes of a location that it does not read as a URL of its own. -/
theorem resolved_of_not_absolute (h : (Uri.split loc).scheme = none ∨ (Uri.split loc).authority = none) :
    resolved base loc =
      if containsText loc "://".toList then none
      else some { base with
        pathAndQuery :=
          if loc.head? = some '/' then loc else Uri.directory base.pathAndQuery ++ loc } := by
  unfold resolved
  rw [parse_not_absolute h]
  split
  next => rfl
  next => split <;> rfl

/-- A location with a scheme and no authority. -/
theorem opaque_iff {scheme : Text} (hr : Uri.split loc = r) (hscheme : r.scheme = some scheme)
    (hauthority : r.authority = none) :
    resolved base loc = urlOf (Uri.resolve b r) ↔ ResolvesRight b r loc := by
  subst hr
  have hrfc : urlOf (Uri.resolve b (Uri.split loc)) = none := by
    unfold Uri.resolve
    rw [if_pos (by rw [hscheme]; rfl)]
    unfold urlOf
    simp only [hscheme, hauthority]
  have hcondition : ResolvesRight b (Uri.split loc) loc ↔
      containsText loc "://".toList = true := by
    unfold ResolvesRight
    simp only [hscheme, hauthority]
  rw [resolved_of_not_absolute (.inr hauthority), hrfc, hcondition]
  split
  next h => exact iff_of_true rfl h
  next h => exact iff_of_false (fun heq => nomatch heq) h

/-- A location with an authority and no scheme. -/
theorem network_iff {authority : Text} (hb : Accepted b base s a) (hr : Uri.split loc = r)
    (hscheme : r.scheme = none) (hauthority : r.authority = some authority) :
    resolved base loc = urlOf (Uri.resolve b r) ↔ ResolvesRight b r loc := by
  subst hr
  have hwell := Uri.wellFormed_split loc
  have hrfc : urlOf (Uri.resolve b (Uri.split loc)) =
      (hostPort (toAsciiLowercase s) authority).map fun hp =>
        ⟨toAsciiLowercase s, hp.1, hp.2, slashed (Uri.removeDotSegments (Uri.split loc).path) ++
          Uri.before ['?'] (Uri.split loc).query⟩ := by
    unfold Uri.resolve
    rw [if_neg (by rw [hscheme]; exact Bool.false_ne_true), if_pos (by rw [hauthority]; rfl)]
    unfold urlOf
    simp only [hb.scheme, hauthority]
    exact if_pos hb.isHttp
  have hcondition : ResolvesRight b (Uri.split loc) loc ↔
      containsText loc "://".toList = true ∧ Rejected s authority := by
    unfold ResolvesRight
    simp only [hscheme, hauthority, hb.scheme, Option.mem_def, Option.some.injEq, forall_eq']
  have htext : loc = '/' :: '/' :: (authority ++ ((Uri.split loc).path ++ (Uri.split loc).tail)) := by
    have htext := Uri.text_split loc
    unfold Uri.Reference.text Uri.Reference.hierarchy at htext
    rw [hscheme, hauthority] at htext
    exact htext.symm
  rw [resolved_of_not_absolute (.inl hscheme), hrfc, hcondition]
  split
  next h =>
    rw [eq_comm, Option.map_eq_none_iff]
    exact (and_iff_right h).symm
  next h =>
    refine iff_of_false (fun heq => ?_) fun hboth => h hboth.1
    obtain ⟨hp, _, hurl⟩ := Option.map_eq_some_iff.mp heq.symm
    have hpath := (Url.mk.inj hurl).2.2.2
    rw [if_pos (by rw [htext]; rfl)] at hpath
    have hlength := congrArg List.length (hpath.trans htext)
    have htarget : (slashed (Uri.removeDotSegments (Uri.split loc).path)).length ≤
        (Uri.split loc).path.length + 1 := by
      have hle := Uri.length_removeDotSegments_le (Uri.split loc).path
      unfold slashed
      split
      next => exact Nat.le_add_left 1 _
      next => exact Nat.le_succ_of_le hle
    have hquery : (Uri.before ['?'] (Uri.split loc).query).length ≤ (Uri.split loc).tail.length := by
      unfold Uri.Reference.tail
      rw [List.length_append]
      exact Nat.le_add_right _ _
    simp only [List.length_append, List.length_cons] at hlength
    omega

/-- What the RFC takes from the base for a location that is a path, a query or empty. -/
theorem rfc_relative (hb : Accepted b base s a) (hscheme : r.scheme = none)
    (hauthority : r.authority = none) :
    ∃ path query, urlOf (Uri.resolve b r) =
        (hostPort (toAsciiLowercase s) a).map (fun hp =>
          ⟨toAsciiLowercase s, hp.1, hp.2, slashed path ++ Uri.before ['?'] query⟩) ∧
      ((r.path = [] ∧ path = b.path ∧ query = r.query.or b.query) ∨
        (r.path.head? = some '/' ∧ path = Uri.removeDotSegments r.path ∧ query = r.query) ∨
        (r.path ≠ [] ∧ r.path.head? ≠ some '/' ∧
          path = Uri.removeDotSegments (Uri.directory b.path ++ r.path) ∧ query = r.query)) := by
  have hurl : ∀ t : Uri.Reference, t.scheme = b.scheme → t.authority = b.authority →
      urlOf t = (hostPort (toAsciiLowercase s) a).map fun hp =>
        ⟨toAsciiLowercase s, hp.1, hp.2, slashed t.path ++ Uri.before ['?'] t.query⟩ := by
    intro t hts hta
    unfold urlOf
    simp only [hts, hta, hb.scheme, hb.authority]
    exact if_pos hb.isHttp
  unfold Uri.resolve
  rw [if_neg (by rw [hscheme]; exact Bool.false_ne_true),
    if_neg (by rw [hauthority]; exact Bool.false_ne_true)]
  by_cases hnil : r.path = []
  · rw [if_pos hnil]
    exact ⟨_, _, hurl _ rfl rfl, .inl ⟨hnil, rfl, rfl⟩⟩
  · rw [if_neg hnil]
    by_cases hhead : r.path.head? = some '/'
    · rw [if_pos hhead]
      exact ⟨_, _, hurl _ rfl rfl, .inr (.inl ⟨hhead, rfl, rfl⟩)⟩
    · rw [if_neg hhead]
      exact ⟨_, _, hurl _ rfl rfl, .inr (.inr ⟨hnil, hhead, rfl, rfl⟩)⟩

/-- No number sign is in what the RFC makes of a path and a query. -/
theorem sharp_notMem_target {path : Text} {query : Option Text}
    (hpath : ∀ c ∈ path, Uri.endsPath c = false) (hquery : '#' ∉ Uri.before ['?'] query) :
    '#' ∉ slashed path ++ Uri.before ['?'] query := by
  rw [List.mem_append]
  exact fun h => h.elim (notMem_slashed hpath (by decide)) hquery

theorem endsPath_directory {path : Text} (h : path = [] ∨ path.head? = some '/')
    (hpath : ∀ c ∈ path, Uri.endsPath c = false) :
    ∀ c ∈ Uri.directory path, Uri.endsPath c = false := by
  intro c hc
  rcases h with rfl | h
  · rw [List.mem_singleton.mp hc]
    decide
  · obtain ⟨after, heq, _⟩ := Uri.directory_cases h
    apply hpath
    rw [heq]
    exact List.mem_append_left _ hc

theorem directory_slashed (path : Text) : Uri.directory (slashed path) = Uri.directory path := by
  unfold slashed
  split
  next h =>
    rw [h]
    rfl
  next => rfl

theorem slashed_of_head {path : Text} (h : path.head? = some '/') : slashed path = path := by
  apply if_neg
  rintro rfl
  cases h

/-- A query or an empty location: the code takes it behind the directory, the RFC behind the path. -/
theorem empty_path_iff (hb : b.WellFormed) (hrooted : b.path = [] ∨ b.path.head? = some '/')
    (hr : r.WellFormed) :
    Uri.directory (slashed b.path ++ b.tail) ++ r.tail =
        slashed b.path ++ Uri.before ['?'] (r.query.or b.query) ↔
      r.fragment = none ∧
        if r.query = none then
          (slashed b.path ++ Uri.before ['?'] b.query).getLast? = some '/' ∧
            '/' ∉ Uri.before ['#'] b.fragment
        else (slashed b.path).getLast? = some '/' ∧ '/' ∉ b.tail := by
  have hhead := head_slashed hrooted
  by_cases hfragment : r.fragment = none
  · rw [tail_of_fragment_none hfragment, and_iff_right hfragment]
    cases hquery : r.query with
    | none =>
      have hhead' : (slashed b.path ++ Uri.before ['?'] b.query).head? = some '/' := by
        rw [List.head?_append, hhead]
        rfl
      rw [if_pos rfl, ← directory_iff hhead', List.append_assoc]
      show Uri.directory (slashed b.path ++ b.tail) ++ [] = _ ↔ _
      rw [List.append_nil]
      rfl
    | some query =>
      rw [if_neg (by exact Option.some_ne_none query), ← directory_iff hhead, Option.some_or,
        List.append_cancel_right_eq]
  · refine iff_of_false (fun heq => ?_) fun h => hfragment h.1
    have hmem : '#' ∈ Uri.directory (slashed b.path ++ b.tail) ++ r.tail :=
      List.mem_append_right _ (sharp_mem_tail hfragment)
    rw [heq] at hmem
    refine sharp_notMem_target hb.path ?_ hmem
    cases hquery : r.query with
    | none => exact sharp_notMem_query hb
    | some query =>
      have hnot := sharp_notMem_query hr
      rwa [hquery] at hnot

/-- A path that is merged with the base's. -/
theorem merged_path_iff (hb : b.WellFormed) (hrooted : b.path = [] ∨ b.path.head? = some '/')
    (hr : r.WellFormed) :
    Uri.directory (slashed b.path ++ b.tail) ++ (r.path ++ r.tail) =
        slashed (Uri.removeDotSegments (Uri.directory b.path ++ r.path)) ++
          Uri.before ['?'] r.query ↔
      r.fragment = none ∧ '/' ∉ b.tail ∧ Uri.DotFree (Uri.directory b.path ++ r.path) := by
  have hmerged : (Uri.directory b.path ++ r.path).head? = some '/' := by
    rw [List.head?_append, Uri.head_directory hrooted]
    rfl
  have hplain : ∀ c ∈ Uri.directory b.path ++ r.path, Uri.endsPath c = false := by
    intro c hc
    rcases List.mem_append.mp hc with hc | hc
    · exact endsPath_directory hrooted hb.path c hc
    · exact hr.path c hc
  by_cases hfragment : r.fragment = none
  · rw [tail_of_fragment_none hfragment, and_iff_right hfragment, ← List.append_assoc,
      List.append_cancel_right_eq]
    by_cases htail : '/' ∈ b.tail
    · refine iff_of_false (fun heq => ?_) fun h => h.1 htail
      obtain ⟨inner, outer, hinner, hdir⟩ := Uri.directory_append_slash (slashed b.path) htail
      obtain ⟨c, rest, hcons⟩ := List.exists_cons_of_ne_nil (List.ne_nil_of_mem htail)
      have hmark := tail_head hcons
      have hends : Uri.endsPath c = true := by
        rcases hmark with rfl | rfl <;> decide
      -- The slash is not the first character of the tail, which is left in the directory.
      have hmem : c ∈ inner := by
        cases inner with
        | nil =>
          rw [hinner] at hcons
          cases hcons
          exact absurd hmark (by decide)
        | cons d inner =>
          rw [hinner] at hcons
          cases hcons
          exact List.mem_cons_self ..
      have hin : c ∈ Uri.directory (slashed b.path ++ b.tail) ++ r.path := by
        rw [hdir]
        exact List.mem_append_left _ (List.mem_append_left _ (List.mem_append_right _ hmem))
      rw [heq] at hin
      exact notMem_slashed (endsPath_removeDotSegments hplain) hends hin
    · rw [and_iff_right htail, Uri.directory_append (head_slashed hrooted) htail, directory_slashed,
        slashed_of_head (Uri.head_removeDotSegments hmerged), eq_comm]
      exact Uri.removeDotSegments_eq_iff (.inr hmerged)
  · refine iff_of_false (fun heq => ?_) fun h => hfragment h.1
    have hmem : '#' ∈ Uri.directory (slashed b.path ++ b.tail) ++ (r.path ++ r.tail) :=
      List.mem_append_right _ (List.mem_append_right _ (sharp_mem_tail hfragment))
    rw [heq] at hmem
    exact sharp_notMem_target (endsPath_removeDotSegments hplain) (sharp_notMem_query hr) hmem

/-- A location that is a path, a query or empty, where the client has read the base as it is. -/
theorem relative_path_iff (hbwell : b.WellFormed) (hb : Accepted b base s a) (hr : Uri.split loc = r)
    (hscheme : r.scheme = none) (hauthority : r.authority = none) (hglued : ¬ Glued b)
    {path : Text} {query : Option Text}
    (htarget : (r.path = [] ∧ path = b.path ∧ query = r.query.or b.query) ∨
        (r.path.head? = some '/' ∧ path = Uri.removeDotSegments r.path ∧ query = r.query) ∨
        (r.path ≠ [] ∧ r.path.head? ≠ some '/' ∧
          path = Uri.removeDotSegments (Uri.directory b.path ++ r.path) ∧ query = r.query)) :
    (if loc.head? = some '/' then loc else Uri.directory base.pathAndQuery ++ loc) =
        slashed path ++ Uri.before ['?'] query ↔
      r.fragment = none ∧
        if r.path = [] then
          if r.query = none then
            (slashed b.path ++ Uri.before ['?'] b.query).getLast? = some '/' ∧
              '/' ∉ Uri.before ['#'] b.fragment
          else (slashed b.path).getLast? = some '/' ∧ '/' ∉ b.tail
        else if r.path.head? = some '/' then Uri.DotFree r.path
        else '/' ∉ b.tail ∧ Uri.DotFree (Uri.directory b.path ++ r.path) := by
  subst hr
  have hrwell := Uri.wellFormed_split loc
  have hrooted := hbwell.rooted (by rw [hb.authority]; rfl)
  have hloc : loc = (Uri.split loc).path ++ (Uri.split loc).tail := by
    have htext := Uri.text_split loc
    unfold Uri.Reference.text Uri.Reference.hierarchy at htext
    rw [hscheme, hauthority] at htext
    exact htext.symm
  have hhead : (Uri.split loc).path.head? ≠ some '/' → loc.head? ≠ some '/' := by
    intro hne heq
    rw [hloc, List.head?_append] at heq
    cases hpath : (Uri.split loc).path.head? with
    | some c =>
      rw [hpath] at heq hne
      exact hne heq
    | none =>
      rw [hpath] at heq
      obtain ⟨rest, htail⟩ := List.head?_eq_some_iff.mp heq
      exact absurd (tail_head htail) (by decide)
  rw [(hb.plain hglued).2]
  rcases htarget with ⟨hnil, rfl, rfl⟩ | ⟨hslash, rfl, rfl⟩ | ⟨hne, hslash, rfl, rfl⟩
  · have hnot : loc.head? ≠ some '/' := hhead (by rw [hnil]; exact fun h => nomatch h)
    have htail : loc = (Uri.split loc).tail := by
      rw [hnil] at hloc
      exact hloc
    rw [if_neg hnot, if_pos hnil, ← empty_path_iff hbwell hrooted hrwell, ← htail]
  · have hslash' : loc.head? = some '/' := by
      rw [hloc, List.head?_append, hslash]
      rfl
    have hne : (Uri.split loc).path ≠ [] := by
      intro hnil
      rw [hnil] at hslash
      cases hslash
    rw [if_pos hslash', if_neg hne, if_pos hslash, ← path_iff hrwell (.inr hslash),
      slashed_of_head hslash, ← hloc]
  · rw [if_neg (hhead hslash), if_neg hne, if_neg hslash, ← merged_path_iff hbwell hrooted hrwell,
      ← hloc]

/-- A location that has no scheme and no authority. -/
theorem relative_iff (hbwell : b.WellFormed) (hb : Accepted b base s a) (hr : Uri.split loc = r)
    (hscheme : r.scheme = none) (hauthority : r.authority = none) :
    resolved base loc = urlOf (Uri.resolve b r) ↔ ResolvesRight b r loc := by
  obtain ⟨path, query, hrfc, htarget⟩ := rfc_relative hb hscheme hauthority
  rw [resolved_of_not_absolute (.inl (hr ▸ hscheme)), hrfc]
  unfold ResolvesRight
  simp only [hscheme, hauthority]
  by_cases hglued : Glued b
  · have hcondition : (∀ scheme ∈ b.scheme, ∀ authority ∈ b.authority, Rejected scheme authority) ↔
        hostPort (toAsciiLowercase s) a = none := by
      rw [hb.scheme, hb.authority]
      simp only [Option.mem_def, Option.some.injEq, forall_eq']
      rfl
    rw [if_pos hglued, hcondition]
    by_cases hcontains : containsText loc "://".toList = true
    · rw [if_pos hcontains, and_iff_right hcontains, eq_comm, Option.map_eq_none_iff]
    · rw [if_neg hcontains]
      refine iff_of_false (fun heq => ?_) fun h => hcontains h.1
      obtain ⟨c, hnot, hmem⟩ := hb.glued hglued
      obtain ⟨hp, hhost, hurl⟩ := Option.map_eq_some_iff.mp heq.symm
      have hhost' : hp.1 = base.host := (Url.mk.inj hurl).2.1
      rw [← hhost'] at hmem
      exact hnot (mem_of_hostPort hhost hmem)
  · rw [if_neg hglued, (hb.plain hglued).1]
    by_cases hcontains : containsText loc "://".toList = true
    · rw [if_pos hcontains]
      refine iff_of_false (fun heq => nomatch heq) fun h => ?_
      rw [hcontains] at h
      cases h.1
    · rw [if_neg hcontains, and_iff_right (Bool.eq_false_iff.mpr hcontains), Option.map_some,
        ← relative_path_iff hbwell hb hr hscheme hauthority hglued htarget, Option.some.injEq,
        ← hb.lower]
      constructor
      · exact fun heq => (Url.mk.inj heq).2.2.2
      · exact fun heq => by rw [heq]

end

end Kernway.HttpClient
