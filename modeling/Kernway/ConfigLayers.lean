import Kernway.KernleafExpr
import Kernway.Str
import Kernway.Table
import Mathlib.Data.Bool.AllAny
import Mathlib.Data.List.Chain

namespace Kernway

/-- Resolved configuration: dotted keys, and the active profile. -/
structure Config where
  map : Table Text Text
  profile : Option Text

namespace Config

def getStr (config : Config) (key : Text) : Option Text := config.map.lookup key

/-- `get`. How a value is parsed is its type's `FromStr`. -/
def get {α : Type} (config : Config) (parse : Text → Option α) (key : Text) : Option α :=
  (config.getStr key).bind parse

def insertAll (pairs : List (Text × Text)) (map : Table Text Text) : Table Text Text :=
  pairs.foldl (fun map p => map.insert p.1 p.2) map

/-- The key and value of a line, unless it is blank, a comment, or without `=`. -/
def property (line : Text) : Option (Text × Text) :=
  let line := trim line
  if line = [] ∨ line.head? = some '#' ∨ line.head? = some '!' then none
  else (cutAt '=' line).map fun p => (trim p.1, trim p.2)

def parseProperties (contents : Text) (map : Table Text Text) : Table Text Text :=
  insertAll ((lines contents).filterMap property) map

/-- `read` gives the text of a file that can be read. -/
def readInto (read : Text → Option Text) (path : Text) (map : Table Text Text) : Table Text Text :=
  match read path with
  | some contents => parseProperties contents map
  | none => map

/-- `yaml` gives the keys and values that a YAML text is flattened to; none, without the feature. -/
def readYamlInto (read : Text → Option Text) (yaml : Text → List (Text × Text)) (path : Text)
    (map : Table Text Text) : Table Text Text :=
  match read path with
  | some contents => insertAll (yaml contents) map
  | none => map

/-- The three files of one layer, the native format last. -/
def readLayer (read : Text → Option Text) (yaml : Text → List (Text × Text)) (stem : Text)
    (map : Table Text Text) : Table Text Text :=
  let map := readYamlInto read yaml (stem ++ ".yml".toList) map
  let map := readYamlInto read yaml (stem ++ ".yaml".toList) map
  readInto read (stem ++ ".properties".toList) map

def envPrefix : Text := "KW_".toList

/-- `replace("__", ".")`. -/
def dotted (s : Text) : Text := Kernleaf.replaceText "__".toList ['.'] s

/-- The key of a variable: without the prefix, in lower case, and with `.` for `__`. -/
def envKey (name : Text) : Option Text :=
  (envPrefix.isPrefixOf? name).map fun rest => dotted (toAsciiLowercase rest)

def envPair (var : Text × Text) : Option (Text × Text) :=
  (envKey var.1).map fun key => (key, var.2)

def mapEnv (vars : List (Text × Text)) (map : Table Text Text) : Table Text Text :=
  insertAll (vars.filterMap envPair) map

def envVar (vars : List (Text × Text)) (name : Text) : Option Text :=
  (vars.find? fun var => var.1 = name).map fun var => var.2

def profileVar : Text := "KW_PROFILE".toList

/-- The active profile: of the environment, else of the base files. -/
def activeProfile (vars : List (Text × Text)) (map : Table Text Text) : Option Text :=
  ((envVar vars profileVar).filter fun profile => decide (profile ≠ [])).or
    (map.lookup "kernway.profiles.active".toList)

def baseStem (dir : Text) : Text := dir ++ "/application".toList

def profileStem (dir profile : Text) : Text := dir ++ "/application-".toList ++ profile

def readProfile (read : Text → Option Text) (yaml : Text → List (Text × Text)) (dir : Text)
    (profile : Option Text) (map : Table Text Text) : Table Text Text :=
  match profile with
  | some profile => readLayer read yaml (profileStem dir profile) map
  | none => map

def loadFrom (read : Text → Option Text) (yaml : Text → List (Text × Text))
    (vars : List (Text × Text)) (dir : Text) : Config :=
  let map := readLayer read yaml (baseStem dir) ∅
  let profile := activeProfile vars map
  let map := readProfile read yaml dir profile map
  { map := mapEnv vars map, profile }

/-- The key that `#[configuration]` reads a field from. -/
def fieldKey (pre field : Text) : Text :=
  let suffix := field.map fun c => if c = '_' then '-' else c
  if pre = [] then suffix else pre ++ '.' :: suffix

/-- The environment after a variable is set, which stands between these. -/
def setVar (name value : Text) (before after : List (Text × Text)) : List (Text × Text) :=
  (before.filter fun var => decide (var.1 ≠ name)) ++
    (name, value) :: after.filter fun var => decide (var.1 ≠ name)

/-- A variable for configuration, of upper-case letters, digits and underscores. -/
def EnvName (name : Text) : Prop :=
  envPrefix <+: name ∧ ∀ c ∈ name, c.isUpper = true ∨ c.isDigit = true ∨ c = '_'

/-- Whatever the files, a variable that sets the key of the field and nothing else. -/
def Overridable (pre field : Text) (before after : List (Text × Text)) : Prop :=
  ∀ (read : Text → Option Text) (yaml : Text → List (Text × Text)) (dir : Text),
    ∃ name, EnvName name ∧ ∀ value,
      let config := loadFrom read yaml (setVar name value before after) dir
      (∀ (α : Type) (parse : Text → Option α),
        config.get parse (fieldKey pre field) = parse value) ∧
      ∀ key, key ≠ fieldKey pre field →
        config.getStr key = (loadFrom read yaml (before ++ after) dir).getStr key

/-- A variable name with `__` for the dots of a key. -/
def expand (key : Text) : Text := key.flatMap fun c => if c = '.' then "__".toList else [c]

def envName (key : Text) : Text := envPrefix ++ toAsciiUppercase (expand key)

/-- No underscore stands before an underscore or a dot. -/
def Spaced (key : Text) : Prop := key.IsChain fun c d => c = '_' → d ≠ '_' ∧ d ≠ '.'

/-- The keys that a variable can have. `KW_PROFILE` sets the key `profile`, but with it the files
that are read. -/
def EnvKey (key : Text) : Prop :=
  (∀ c ∈ key, c.isLower = true ∨ c.isDigit = true ∨ c = '_' ∨ c = '.') ∧ Spaced key ∧
    key ≠ "profile".toList

section Layers

theorem lookup_insertAll (pairs : List (Text × Text)) (map : Table Text Text) (key : Text) :
    (insertAll pairs map).lookup key = (pairs.reverse.lookup key).or (map.lookup key) := by
  induction pairs generalizing map with
  | nil => rfl
  | cons p pairs ih =>
    obtain ⟨k, v⟩ := p
    have hstep : insertAll ((k, v) :: pairs) map = insertAll pairs (map.insert k v) := rfl
    rw [hstep, ih, List.reverse_cons, List.lookup_append, Option.or_assoc, Table.lookup_insert_eq]
    congr 1
    split
    next h => simp [List.lookup_cons, h]
    next h => simp [List.lookup_cons, beq_false_of_ne h]

/-- A layer over a map is the layer by itself, and the map where it has no value. -/
def Layer (load : Table Text Text → Table Text Text) : Prop :=
  ∀ map key, (load map).lookup key = ((load ∅).lookup key).or (map.lookup key)

theorem layer_insertAll (pairs : List (Text × Text)) : Layer (insertAll pairs) := by
  intro map key
  have hempty : (insertAll pairs ∅).lookup key = pairs.reverse.lookup key := by
    rw [lookup_insertAll, AList.lookup_empty, Option.or_none]
  rw [lookup_insertAll, hempty]

theorem layer_id : Layer id := fun map key => by
  rw [id, id, AList.lookup_empty, Option.none_or]

theorem Layer.comp {load load' : Table Text Text → Table Text Text} (h : Layer load)
    (h' : Layer load') : Layer fun map => load' (load map) := by
  intro map key
  show (load' (load map)).lookup key = ((load' (load ∅)).lookup key).or (map.lookup key)
  rw [h' (load map) key, h' (load ∅) key, h map key, Option.or_assoc]

theorem layer_readInto (read : Text → Option Text) (path : Text) : Layer (readInto read path) := by
  unfold readInto
  cases read path with
  | none => exact layer_id
  | some contents => exact layer_insertAll _

theorem layer_readYamlInto (read : Text → Option Text) (yaml : Text → List (Text × Text))
    (path : Text) : Layer (readYamlInto read yaml path) := by
  unfold readYamlInto
  cases read path with
  | none => exact layer_id
  | some contents => exact layer_insertAll _

theorem layer_readLayer (read : Text → Option Text) (yaml : Text → List (Text × Text))
    (stem : Text) : Layer (readLayer read yaml stem) :=
  ((layer_readYamlInto read yaml _).comp (layer_readYamlInto read yaml _)).comp
    (layer_readInto read _)

theorem layer_readProfile (read : Text → Option Text) (yaml : Text → List (Text × Text))
    (dir : Text) (profile : Option Text) : Layer (readProfile read yaml dir profile) := by
  unfold readProfile
  cases profile with
  | none => exact layer_id
  | some profile => exact layer_readLayer read yaml _

/-- The last of the base files, the profile files and the environment that has a key gives its
value. -/
theorem getStr_loadFrom (read : Text → Option Text) (yaml : Text → List (Text × Text))
    (vars : List (Text × Text)) (dir key : Text) :
    (loadFrom read yaml vars dir).getStr key =
      ((mapEnv vars ∅).lookup key).or
        (((readProfile read yaml dir (loadFrom read yaml vars dir).profile ∅).lookup key).or
          ((readLayer read yaml (baseStem dir) ∅).lookup key)) := by
  unfold getStr loadFrom
  dsimp only
  rw [mapEnv, layer_insertAll, layer_readProfile]
  rfl

end Layers

section Names

theorem dotted_nil : dotted [] = [] := by
  unfold dotted Kernleaf.replaceText
  rfl

theorem dotted_dunder (s : Text) : dotted ('_' :: '_' :: s) = '.' :: dotted s := by
  unfold dotted
  rw [Kernleaf.replaceText]
  rfl

theorem dotted_cons {c : Char} {s : Text} (h : c = '_' → s.head? ≠ some '_') :
    dotted (c :: s) = c :: dotted s := by
  have hnot : "__".toList.isPrefixOf (c :: s) = false := by
    cases hp : "__".toList.isPrefixOf (c :: s) with
    | false => rfl
    | true =>
      obtain ⟨t, ht⟩ := List.isPrefixOf_iff_prefix.mp hp
      obtain ⟨hc, hs⟩ := List.cons.inj ht
      refine absurd ?_ (h hc.symm)
      rw [← hs]
      rfl
  unfold dotted
  rw [Kernleaf.replaceText, hnot]
  rfl

/-- Two underscores at a time, as they are replaced. -/
theorem dunder_induction {motive : Text → Prop} (nil : motive [])
    (dunder : ∀ s, motive s → motive ('_' :: '_' :: s))
    (cons : ∀ c s, (c = '_' → s.head? ≠ some '_') → motive s → motive (c :: s)) (s : Text) :
    motive s := by
  suffices h : motive s ∧ motive s.tail from h.1
  induction s with
  | nil => exact ⟨nil, nil⟩
  | cons c s ih =>
    refine ⟨?_, ih.1⟩
    by_cases hdunder : c = '_' ∧ s.head? = some '_'
    · obtain ⟨rfl, hs⟩ := hdunder
      obtain ⟨t, rfl⟩ : ∃ t, s = '_' :: t := by
        cases s with
        | nil => cases hs
        | cons d t => exact ⟨t, by rw [Option.some.inj hs]⟩
      exact dunder t ih.2
    · exact cons c s (fun hc hs => hdunder ⟨hc, hs⟩) ih.1

theorem head?_dotted {s : Text} {d : Char} (h : (dotted s).head? = some d) (hs : s.head? ≠ some '_') :
    s.head? = some d := by
  cases s with
  | nil =>
    rw [dotted_nil] at h
    exact h
  | cons c s =>
    rw [dotted_cons fun hc => absurd (congrArg some hc) hs] at h
    exact h

theorem expand_dotted {s : Text} (h : '.' ∉ s) : expand (dotted s) = s := by
  induction s using dunder_induction with
  | nil => rw [dotted_nil]; rfl
  | dunder s ih =>
    have hs : '.' ∉ s := fun hin => h (List.mem_cons_of_mem _ (List.mem_cons_of_mem _ hin))
    rw [dotted_dunder, expand, List.flatMap_cons]
    exact congrArg ("__".toList ++ ·) (ih hs)
  | cons c s hc ih =>
    have hs : '.' ∉ s := fun hin => h (List.mem_cons_of_mem _ hin)
    have hdot : c ≠ '.' := fun heq => h (by rw [heq]; exact List.mem_cons_self)
    rw [dotted_cons hc, expand, List.flatMap_cons, if_neg hdot]
    exact congrArg (c :: ·) (ih hs)

theorem spaced_dotted {s : Text} (h : '.' ∉ s) : Spaced (dotted s) := by
  unfold Spaced
  induction s using dunder_induction with
  | nil =>
    rw [dotted_nil]
    exact .nil
  | dunder s ih =>
    have hs : '.' ∉ s := fun hin => h (List.mem_cons_of_mem _ (List.mem_cons_of_mem _ hin))
    rw [dotted_dunder, List.isChain_cons]
    exact ⟨fun d _ hdot => absurd hdot (by decide), ih hs⟩
  | cons c s hc ih =>
    have hs : '.' ∉ s := fun hin => h (List.mem_cons_of_mem _ hin)
    rw [dotted_cons hc, List.isChain_cons]
    refine ⟨fun d hd hunder => ?_, ih hs⟩
    have hhead := head?_dotted hd (hc hunder)
    have hmem : d ∈ s := List.mem_of_mem_head? hhead
    refine ⟨fun hd' => hc hunder (by rw [hhead, hd']), fun hd' => hs (hd' ▸ hmem)⟩

theorem dotted_expand {key : Text} (h : Spaced key) : dotted (expand key) = key := by
  induction key with
  | nil => exact dotted_nil
  | cons c key ih =>
    unfold Spaced at h ih
    rw [List.isChain_cons] at h
    rw [expand, List.flatMap_cons]
    have ih' : dotted (key.flatMap fun c => if c = '.' then "__".toList else [c]) = key := ih h.2
    by_cases hdot : c = '.'
    · rw [if_pos hdot, hdot]
      exact (dotted_dunder _).trans (congrArg ('.' :: ·) ih')
    · rw [if_neg hdot]
      refine (dotted_cons fun hc hhead => ?_).trans (congrArg (c :: ·) ih')
      cases key with
      | nil => cases hhead
      | cons d key =>
        obtain ⟨hd, hd'⟩ := h.1 d rfl hc
        rw [List.flatMap_cons, if_neg hd'] at hhead
        exact hd (Option.some.inj hhead)

/-- The letters of a key, in either case. -/
def NameChar (c : Char) : Prop := c.isUpper = true ∨ c.isDigit = true ∨ c = '_'

theorem ascii_cases {P : Char → Prop} (h : ∀ n < 128, P (Char.ofNat n)) {c : Char}
    (hc : c.toNat < 128) : P c := by
  have hn := h c.toNat hc
  rwa [Char.ofNat_toNat] at hn

theorem upper_lower {c : Char} (h : c.isLower = true ∨ c.isDigit = true ∨ c = '_') :
    NameChar c.toUpper ∧ c.toUpper.toLower = c := by
  have hc : c.toNat < 128 := by
    rcases h with h | h | rfl
    · have hrange : (decide (c.val ≥ 'a'.val) && decide (c.val ≤ 'z'.val)) = true := h
      simp only [Bool.and_eq_true, decide_eq_true_eq] at hrange
      exact Nat.lt_of_le_of_lt (UInt32.le_iff_toNat_le.mp hrange.2) (by decide)
    · simp only [Char.isDigit, Bool.and_eq_true, decide_eq_true_eq] at h
      exact Nat.lt_of_le_of_lt (UInt32.le_iff_toNat_le.mp h.2) (by decide)
    · decide
  revert h
  unfold NameChar
  exact ascii_cases (P := fun c => c.isLower = true ∨ c.isDigit = true ∨ c = '_' →
    (c.toUpper.isUpper = true ∨ c.toUpper.isDigit = true ∨ c.toUpper = '_') ∧
      c.toUpper.toLower = c) (by decide) hc

theorem lower_upper {c : Char} (h : NameChar c) :
    (c.toLower.isLower = true ∨ c.toLower.isDigit = true ∨ c.toLower = '_') ∧
      c.toLower.toUpper = c := by
  have hc : c.toNat < 128 := by
    rcases h with h | h | rfl
    · have hrange : c.val ≥ 'A'.val ∧ c.val ≤ 'Z'.val := of_decide_eq_true h
      exact Nat.lt_of_le_of_lt (UInt32.le_iff_toNat_le.mp hrange.2) (by decide)
    · simp only [Char.isDigit, Bool.and_eq_true, decide_eq_true_eq] at h
      exact Nat.lt_of_le_of_lt (UInt32.le_iff_toNat_le.mp h.2) (by decide)
    · decide
  revert h
  unfold NameChar
  exact ascii_cases (P := fun c => c.isUpper = true ∨ c.isDigit = true ∨ c = '_' →
    (c.toLower.isLower = true ∨ c.toLower.isDigit = true ∨ c.toLower = '_') ∧
      c.toLower.toUpper = c) (by decide) hc

theorem mem_dotted {s : Text} {c : Char} (h : c ∈ dotted s) : c ∈ s ∨ c = '.' := by
  induction s using dunder_induction with
  | nil =>
    rw [dotted_nil] at h
    exact .inl h
  | dunder s ih =>
    rw [dotted_dunder] at h
    rcases List.mem_cons.mp h with hc | hin
    · exact .inr hc
    · exact (ih hin).imp_left fun hin => List.mem_cons_of_mem _ (List.mem_cons_of_mem _ hin)
  | cons d s hd ih =>
    rw [dotted_cons hd] at h
    rcases List.mem_cons.mp h with hc | hin
    · exact .inl (hc ▸ List.mem_cons_self)
    · exact (ih hin).imp_left (List.mem_cons_of_mem _)

theorem mem_expand {key : Text} {c : Char}
    (h : ∀ c ∈ key, c.isLower = true ∨ c.isDigit = true ∨ c = '_' ∨ c = '.') (hc : c ∈ expand key) :
    c.isLower = true ∨ c.isDigit = true ∨ c = '_' := by
  obtain ⟨d, hd, hc⟩ := List.mem_flatMap.mp hc
  split at hc
  next =>
    right; right
    simpa using hc
  next hdot =>
    rw [List.mem_singleton.mp hc]
    rcases h d hd with hd | hd | hd | hd
    · exact .inl hd
    · exact .inr (.inl hd)
    · exact .inr (.inr hd)
    · exact absurd hd hdot

theorem envName_of_key {key : Text}
    (h : ∀ c ∈ key, c.isLower = true ∨ c.isDigit = true ∨ c = '_' ∨ c = '.') :
    EnvName (envName key) := by
  refine ⟨List.prefix_append _ _, fun c hc => ?_⟩
  rcases List.mem_append.mp hc with hc | hc
  · have hall : ∀ c ∈ envPrefix, NameChar c := by
      unfold NameChar
      exact List.all_iff_forall_prop.mp (by decide)
    exact hall c hc
  · obtain ⟨d, hd, rfl⟩ := List.mem_map.mp hc
    exact (upper_lower (mem_expand h hd)).1

theorem envKey_envName {key : Text}
    (h : ∀ c ∈ key, c.isLower = true ∨ c.isDigit = true ∨ c = '_' ∨ c = '.') (hs : Spaced key) :
    envKey (envName key) = some key := by
  have hlower : toAsciiLowercase (toAsciiUppercase (expand key)) = expand key := by
    unfold toAsciiLowercase toAsciiUppercase
    rw [List.map_map]
    refine (List.map_congr_left fun c hc => ?_).trans (List.map_id _)
    exact (upper_lower (mem_expand h hc)).2
  rw [envKey, envName, isPrefixOf?_append, Option.map_some, hlower, dotted_expand hs]

/-- A variable's name is read back from its key. -/
theorem eq_envName {name key : Text} (hname : EnvName name) (hkey : envKey name = some key) :
    name = envName key ∧ Spaced key ∧
      ∀ c ∈ key, c.isLower = true ∨ c.isDigit = true ∨ c = '_' ∨ c = '.' := by
  obtain ⟨⟨rest, rfl⟩, hchars⟩ := hname
  rw [envKey, isPrefixOf?_append, Option.map_some] at hkey
  have hrest : ∀ c ∈ rest, NameChar c := fun c hc => hchars c (List.mem_append_right _ hc)
  have hlower : ∀ c ∈ toAsciiLowercase rest, c.isLower = true ∨ c.isDigit = true ∨ c = '_' := by
    intro c hc
    obtain ⟨d, hd, rfl⟩ := List.mem_map.mp hc
    exact (lower_upper (hrest d hd)).1
  have hdot : '.' ∉ toAsciiLowercase rest := fun hin => by
    have hno := hlower _ hin
    revert hno
    decide
  have hupper : toAsciiUppercase (toAsciiLowercase rest) = rest := by
    unfold toAsciiLowercase toAsciiUppercase
    rw [List.map_map]
    refine (List.map_congr_left fun c hc => ?_).trans (List.map_id _)
    exact (lower_upper (hrest c hc)).2
  rw [← Option.some.inj hkey]
  refine ⟨?_, spaced_dotted hdot, fun c hc => ?_⟩
  · rw [envName, expand_dotted hdot, hupper]
  · rcases mem_dotted hc with hin | hc
    · rcases hlower c hin with hc | hc | hc
      · exact .inl hc
      · exact .inr (.inl hc)
      · exact .inr (.inr (.inl hc))
    · exact .inr (.inr (.inr hc))

end Names

section Environment

/-- The value that the environment gives a key. -/
def valueIn (vars : List (Text × Text)) (key : Text) : Option Text :=
  (vars.filterMap envPair).reverse.lookup key

variable {name value key : Text} {before after : List (Text × Text)}

theorem lookup_mapEnv (vars : List (Text × Text)) (key : Text) :
    (mapEnv vars ∅).lookup key = valueIn vars key := by
  rw [mapEnv, lookup_insertAll, AList.lookup_empty, Option.or_none]
  rfl

theorem valueIn_append (a b : List (Text × Text)) (key : Text) :
    valueIn (a ++ b) key = (valueIn b key).or (valueIn a key) := by
  unfold valueIn
  rw [List.filterMap_append, List.reverse_append, List.lookup_append]

theorem valueIn_cons (var : Text × Text) (vars : List (Text × Text)) (key : Text) :
    valueIn (var :: vars) key =
      (valueIn vars key).or (if envKey var.1 = some key then some var.2 else none) := by
  have hone : valueIn [var] key = if envKey var.1 = some key then some var.2 else none := by
    unfold valueIn envPair
    cases hkey : envKey var.1 with
    | none => simp [hkey]
    | some k =>
      by_cases hk : key = k
      · simp [hkey, hk]
      · simp [hkey, beq_false_of_ne hk, Ne.symm hk]
  rw [← hone]
  exact valueIn_append [var] vars key

theorem valueIn_eq_none {vars : List (Text × Text)} :
    valueIn vars key = none ↔ ∀ var ∈ vars, envKey var.1 ≠ some key := by
  induction vars with
  | nil => simp [valueIn]
  | cons var vars ih =>
    rw [valueIn_cons, Option.or_eq_none_iff, ih, List.forall_mem_cons]
    simp [and_comm]

theorem valueIn_filter (vars : List (Text × Text)) (h : envKey name ≠ some key) :
    valueIn (vars.filter fun var => decide (var.1 ≠ name)) key = valueIn vars key := by
  induction vars with
  | nil => rfl
  | cons var vars ih =>
    rw [List.filter_cons, valueIn_cons]
    split
    next => rw [valueIn_cons, ih]
    next hname =>
      have hvar : var.1 = name := by simpa using hname
      rw [ih, hvar, if_neg h, Option.or_none]

theorem valueIn_setVar (name value : Text) (before after : List (Text × Text)) (key : Text) :
    valueIn (setVar name value before after) key =
      (valueIn (after.filter fun var => decide (var.1 ≠ name)) key).or
        ((if envKey name = some key then some value else none).or
          (valueIn (before.filter fun var => decide (var.1 ≠ name)) key)) := by
  rw [setVar, valueIn_append, valueIn_cons, Option.or_assoc]

theorem valueIn_setVar_of_ne (h : envKey name ≠ some key) :
    valueIn (setVar name value before after) key = valueIn (before ++ after) key := by
  rw [valueIn_setVar, valueIn_filter after h, valueIn_filter before h, if_neg h, Option.none_or,
    valueIn_append]

theorem envVar_setVar_of_ne {other : Text} (h : name ≠ other) :
    envVar (setVar name value before after) other = envVar (before ++ after) other := by
  have hfilter : ∀ vars : List (Text × Text),
      ((vars.filter fun var => decide (var.1 ≠ name)).find? fun var => decide (var.1 = other)) =
        vars.find? fun var => decide (var.1 = other) := by
    intro vars
    rw [List.find?_filter]
    congr 1
    funext var
    by_cases hvar : var.1 = other
    · simp [hvar, Ne.symm h]
    · simp [hvar]
  have hother : decide (name = other) = false := decide_eq_false h
  unfold envVar setVar
  rw [List.find?_append, List.find?_append, List.find?_cons, hfilter, hfilter, hother]

theorem envVar_setVar (name value : Text) (before after : List (Text × Text)) :
    envVar (setVar name value before after) name = some value := by
  have hnone : (before.filter fun var => decide (var.1 ≠ name)).find?
      (fun var => decide (var.1 = name)) = none := by
    refine List.find?_eq_none.mpr fun var hvar => ?_
    simpa using (List.mem_filter.mp hvar).2
  unfold envVar setVar
  rw [List.find?_append, hnone, Option.none_or, List.find?_cons, decide_eq_true rfl]
  rfl

theorem getStr_of_get {config : Config}
    (h : ∀ (α : Type) (parse : Text → Option α), config.get parse key = parse value) :
    config.getStr key = some value := by
  have hget := h Text some
  unfold get at hget
  rwa [Option.bind_fun_some] at hget

/-- Where the files are silent on a key, a variable that sets it is its own, and no later one
is. -/
theorem envKey_of_sets {read : Text → Option Text} {yaml : Text → List (Text × Text)} {dir : Text}
    (hfiles : ∀ vars, ((readProfile read yaml dir (loadFrom read yaml vars dir).profile ∅).lookup
      key).or ((readLayer read yaml (baseStem dir) ∅).lookup key) = none)
    (h : ∀ value, (loadFrom read yaml (setVar name value before after) dir).getStr key =
      some value) :
    envKey name = some key ∧ ∀ var ∈ after, envKey var.1 = some key → var.1 = name := by
  have hvalue : ∀ value, (valueIn (after.filter fun var => decide (var.1 ≠ name)) key).or
      ((if envKey name = some key then some value else none).or
        (valueIn (before.filter fun var => decide (var.1 ≠ name)) key)) = some value := by
    intro value
    rw [← valueIn_setVar, ← h value, getStr_loadFrom, hfiles, Option.or_none, lookup_mapEnv]
  have hafter : valueIn (after.filter fun var => decide (var.1 ≠ name)) key = none := by
    cases hlater : valueIn (after.filter fun var => decide (var.1 ≠ name)) key with
    | none => rfl
    | some later =>
      have hlong := hvalue ('x' :: later)
      rw [hlater, Option.some_or] at hlong
      exact absurd (congrArg List.length (Option.some.inj hlong)) (by simp)
  refine ⟨?_, fun var hvar hkey => ?_⟩
  · by_contra hne
    have hempty := hvalue []
    have hx := hvalue ['x']
    rw [if_neg hne] at hempty hx
    rw [hempty] at hx
    cases hx
  · by_contra hne
    exact valueIn_eq_none.1 hafter var (List.mem_filter.mpr ⟨hvar, decide_eq_true hne⟩) hkey

theorem loadFrom_map_eq {read : Text → Option Text} {yaml : Text → List (Text × Text)} {dir : Text}
    {vars vars' : List (Text × Text)} (h : envVar vars profileVar = envVar vars' profileVar) :
    (loadFrom read yaml vars dir).profile = (loadFrom read yaml vars' dir).profile := by
  show activeProfile vars _ = activeProfile vars' _
  unfold activeProfile
  rw [h]

theorem overridable_of_envKey {pre field : Text} (h : EnvKey (fieldKey pre field))
    (hafter : ∀ var ∈ after, envKey var.1 = some (fieldKey pre field) →
      var.1 = envName (fieldKey pre field)) : Overridable pre field before after := by
  intro read yaml dir
  obtain ⟨hchars, hspaced, hprofile⟩ := h
  have hkey := envKey_envName hchars hspaced
  have hne : envName (fieldKey pre field) ≠ profileVar := by
    intro heq
    rw [heq] at hkey
    exact hprofile (Option.some.inj (hkey.symm.trans (by decide)))
  refine ⟨envName (fieldKey pre field), envName_of_key hchars, fun value => ⟨?_, ?_⟩⟩
  · intro α parse
    have hlater : valueIn (after.filter fun var =>
        decide (var.1 ≠ envName (fieldKey pre field))) (fieldKey pre field) = none := by
      refine valueIn_eq_none.2 fun var hvar hvarKey => ?_
      obtain ⟨hin, hother⟩ := List.mem_filter.mp hvar
      exact of_decide_eq_true hother (hafter var hin hvarKey)
    unfold get
    rw [getStr_loadFrom, lookup_mapEnv, valueIn_setVar, hlater, if_pos hkey]
    rfl
  · intro key hother
    have hno : envKey (envName (fieldKey pre field)) ≠ some key := fun heq =>
      hother (Option.some.inj (heq.symm.trans hkey))
    rw [getStr_loadFrom, getStr_loadFrom, lookup_mapEnv, lookup_mapEnv, valueIn_setVar_of_ne hno,
      loadFrom_map_eq (envVar_setVar_of_ne hne)]

/-- A variable that sets the field has its key, and no later one has. -/
theorem envKey_of_overridable {pre field : Text} (h : Overridable pre field before after) :
    ∃ name, EnvName name ∧ envKey name = some (fieldKey pre field) ∧
      ∀ var ∈ after, envKey var.1 = some (fieldKey pre field) → var.1 = name := by
  obtain ⟨name, hname, hset⟩ := h (fun _ => none) (fun _ => []) []
  refine ⟨name, hname, envKey_of_sets (fun vars => ?_) fun value => getStr_of_get (hset value).1⟩
  unfold readProfile
  split
  next => rfl
  next => rfl

/-- One file that sets the key `K`. -/
def oneFile (path : Text) : Text → Option Text := fun p =>
  if p = path then some "K=1".toList else none

theorem readLayer_oneFile (path stem : Text) :
    readLayer (oneFile path) (fun _ => []) stem ∅ =
      if stem ++ ".properties".toList = path then insertAll [(['K'], ['1'])] ∅ else ∅ := by
  have hyaml : ∀ p map, readYamlInto (oneFile path) (fun _ => []) p map = map := by
    intro p map
    unfold readYamlInto oneFile
    split
    next => rfl
    next => rfl
  have hparse : (lines "K=1".toList).filterMap property = [(['K'], ['1'])] := by decide
  show readInto _ _ (readYamlInto _ _ _ (readYamlInto _ _ _ ∅)) = _
  rw [hyaml, hyaml]
  unfold readInto oneFile
  split
  next h =>
    split at h
    next hpath =>
      cases h
      rw [if_pos hpath, parseProperties, hparse]
    next => cases h
  next h =>
    split at h
    next => cases h
    next hpath => rw [if_neg hpath]

theorem valueIn_upper (vars : List (Text × Text)) : valueIn vars ['K'] = none := by
  refine valueIn_eq_none.2 fun var _ hkey => ?_
  obtain ⟨rest, _, hrest⟩ := Option.map_eq_some_iff.mp hkey
  have hin : 'K' ∈ dotted (toAsciiLowercase rest) := hrest ▸ List.mem_cons_self
  rcases mem_dotted hin with hin | hdot
  · obtain ⟨c, _, hc⟩ := List.mem_map.mp hin
    have hlower : ∀ c : Char, c.toLower ≠ 'K' := by
      intro c hc
      by_cases hascii : c.toNat < 128
      · revert hc
        exact ascii_cases (P := fun c => c.toLower ≠ 'K') (by decide) hascii
      · rw [toLower_high (by omega)] at hc
        rw [hc] at hascii
        exact hascii (by decide)
    exact hlower c hc
  · revert hdot
    decide

/-- Setting the key `profile` reads another profile file. -/
theorem not_overridable_profile {pre field : Text}
    (hkey : fieldKey pre field = "profile".toList) : ¬ Overridable pre field before after := by
  intro hover
  obtain ⟨old, hdef⟩ : ∃ old,
    (loadFrom (fun _ => none) (fun _ => []) (before ++ after) []).profile = old := ⟨_, rfl⟩
  let profile := 'x' :: (old.getD [])
  have hold : old ≠ some profile := fun heq => by
    have hlength : (old.getD []).length = profile.length := by rw [heq]; rfl
    simp [profile] at hlength
  let path := profileStem [] profile ++ ".properties".toList
  obtain ⟨name, hname, hset⟩ := hover (oneFile path) (fun _ => []) []
  have hbase : readLayer (oneFile path) (fun _ => []) (baseStem []) ∅ = ∅ := by
    rw [readLayer_oneFile, if_neg]
    intro heq
    simp [path, baseStem, profileStem] at heq
  have hsilent : ∀ vars, ((readProfile (oneFile path) (fun _ => []) []
      (loadFrom (oneFile path) (fun _ => []) vars []).profile ∅).lookup (fieldKey pre field)).or
        ((readLayer (oneFile path) (fun _ => []) (baseStem []) ∅).lookup (fieldKey pre field)) =
          none := by
    intro vars
    rw [hbase, hkey]
    unfold readProfile
    split
    next p _ =>
      rw [readLayer_oneFile]
      split
      next => decide
      next => rfl
    next => rfl
  have hsets : ∀ value, (loadFrom (oneFile path) (fun _ => []) (setVar name value before after)
      []).getStr (fieldKey pre field) = some value := fun value => getStr_of_get (hset value).1
  have hvar : name = profileVar := by
    rw [(eq_envName hname (envKey_of_sets hsilent hsets).1).1, hkey]
    decide
  have hother := (hset profile).2 ['K'] (by rw [hkey]; decide)
  -- with the variable set the file is read, without it not
  have hprofile : ∀ vars, (loadFrom (oneFile path) (fun _ => []) vars []).profile =
      (loadFrom (fun _ => none) (fun _ => []) vars []).profile := by
    intro vars
    show activeProfile vars _ = activeProfile vars _
    rw [hbase]
    rfl
  have hnew : (loadFrom (oneFile path) (fun _ => []) (setVar name profile before after) []).profile =
      some profile := by
    show activeProfile _ _ = _
    unfold activeProfile
    rw [hvar, envVar_setVar]
    rfl
  rw [getStr_loadFrom, getStr_loadFrom, lookup_mapEnv, lookup_mapEnv, valueIn_upper, valueIn_upper,
    hbase, hnew, hprofile, hdef] at hother
  have hread : (readProfile (oneFile path) (fun _ => []) [] (some profile) ∅).lookup ['K'] =
      some ['1'] := by
    unfold readProfile
    dsimp only
    rw [readLayer_oneFile, if_pos rfl]
    decide
  have hunread : (readProfile (oneFile path) (fun _ => []) [] old ∅).lookup ['K'] = none := by
    cases hp : old with
    | none => rfl
    | some p =>
      unfold readProfile
      dsimp only
      rw [readLayer_oneFile, if_neg]
      · rfl
      · intro heq
        have hsame : p = profile := List.append_cancel_left (List.append_cancel_right heq)
        exact hold (by rw [hp, hsame])
  rw [hread, hunread] at hother
  cases hother

end Environment

/-- The last layer that has a key gives its value; and a field can be set from the environment
exactly when its key is one that a variable can have, and no later variable has it. -/
theorem overridable_iff (pre field : Text) (before after : List (Text × Text)) :
    (∀ (read : Text → Option Text) (yaml : Text → List (Text × Text)) (vars : List (Text × Text))
        (dir key : Text),
      (loadFrom read yaml vars dir).getStr key =
        ((mapEnv vars ∅).lookup key).or
          (((readProfile read yaml dir (loadFrom read yaml vars dir).profile ∅).lookup key).or
            ((readLayer read yaml (baseStem dir) ∅).lookup key))) ∧
      (Overridable pre field before after ↔
        EnvKey (fieldKey pre field) ∧ ∀ var ∈ after, envKey var.1 = some (fieldKey pre field) →
          var.1 = envName (fieldKey pre field)) := by
  refine ⟨getStr_loadFrom, fun hover => ?_, fun h => overridable_of_envKey h.1 h.2⟩
  obtain ⟨name, hname, hkey, hafter⟩ := envKey_of_overridable hover
  obtain ⟨heq, hspaced, hchars⟩ := eq_envName hname hkey
  refine ⟨⟨hchars, hspaced, fun hprofile => not_overridable_profile hprofile hover⟩, ?_⟩
  rw [← heq]
  exact hafter

/-- No variable sets `server.keep-alive-secs`. -/
theorem not_overridable_hyphen : ¬ ∀ pre field before after, Overridable pre field before after := by
  intro h
  have hover := h "server".toList "keep_alive_secs".toList [] []
  obtain ⟨name, hname, hkey, _⟩ := envKey_of_overridable hover
  have hchars := (eq_envName hname hkey).2.2
  exact absurd (List.all_iff_forall_prop.mpr hchars) (by decide)

end Config

end Kernway
