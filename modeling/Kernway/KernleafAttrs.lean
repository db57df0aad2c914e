import Kernway.HtmlTags
import Kernway.KernleafSources

namespace Kernway.Kernleaf

section Source

/-- The `th:` attributes that are no attributes of the output. -/
def directives : List Text :=
  ["text", "utext", "if", "unless", "each", "inline", "authorize", "fragment", "insert",
    "replace"].map String.toList

def isStatic (name : Text) : Bool :=
  name != "xmlns:th".toList && ("th:".toList.isPrefixOf? name).isNone

/-- The name that a `th:` attribute sets. -/
def attrSet (name : Text) : Option Text :=
  ("th:".toList.isPrefixOf? name).filter fun directive => !directives.contains directive

def statics (tag : Html.Tag) : List Html.Attr := tag.attrs.filter fun a => isStatic a.name

/-- The names that the `th:` attributes of a tag set, each with its expression. -/
def settings (tag : Html.Tag) : List (Text × Text) :=
  tag.attrs.filterMap fun a => (attrSet a.name).map fun name => (name, a.value)

/-- Where the engine cuts a tag as HTML does: it passes over a `=` where a name begins and ends a
value without quotes at a `/`; and a `th:` sets some name. -/
structure Plain (tag : Html.Tag) : Prop where
  tagName : '=' ∉ tag.name
  attrName : ∀ a ∈ tag.attrs, a.name.head? ≠ some '='
  unquoted : ∀ a ∈ tag.attrs, a.unquoted = true → '/' ∉ a.value
  named : ∀ a ∈ tag.attrs, a.name ≠ "th:".toList

variable {F : Type} (parseExpr : Text → Except TemplateError (Expr F))

def settingText [StdLib F] (env : Env F) (scope : Scope F) (source : Text) : Text :=
  match parseExpr source with
  | .ok e => (eval env scope e).text
  | .error _ => []

/-- What the template says of an attribute: the evaluated value of the name that a `th:` sets, else
the value that stands in the source. -/
def meant [StdLib F] (refs : Html.References) (env : Env F) (scope : Scope F) (tag : Html.Tag)
    (name : Text) : Option Text :=
  match (settings tag).find? fun s => toAsciiLowercase s.1 = name with
  | some s => some (settingText parseExpr env scope s.2)
  | none => ((statics tag).find? fun a => toAsciiLowercase a.name = name).map fun a =>
      Html.decode refs a.value

/-- The attributes that come out as they are meant: the first one of a name is written as its
evaluated value where a `th:` sets it too, and else has no character reference. -/
def Kept [StdLib F] (refs : Html.References) (env : Env F) (scope : Scope F)
    (tag : Html.Tag) : Prop :=
  ∀ name a, ((statics tag).find? fun a => toAsciiLowercase a.name = name) = some a →
    a.value = (((settings tag).find? fun s => toAsciiLowercase s.1 = name).map fun s =>
      settingText parseExpr env scope s.2).getD (Html.decode refs a.value)

end Source

section Cut

theorem isSpace_eq : Html.isSpace = isAsciiWhitespace := rfl

theorem isNameChar_eq (c : Char) : isNameChar c = Html.isNameChar c := by
  simp only [isNameChar, Html.isNameChar, isSpace_eq]
  grind

theorem head?_dropWhile {α : Type} {p : α → Bool} {xs : List α} :
    ∀ x ∈ (xs.dropWhile p).head?, p x = false := by
  intro x hx
  have hnot := List.head?_dropWhile_not p xs
  rw [Option.mem_def.mp hx] at hnot
  simpa using hnot

theorem readAttrValue_eq {s value rest : Text} {unquoted : Bool}
    (h : Html.attrValue s = some (value, unquoted, rest)) (hplain : unquoted = true → '/' ∉ value) :
    readAttrValue s = (value, rest) := by
  unfold Html.attrValue at h
  split at h
  next => cases h
  next q t =>
    split at h
    next hq =>
      obtain ⟨cut, hcut, heq⟩ := Option.map_eq_some_iff.mp h
      cases heq
      obtain ⟨rfl, hnot⟩ := cutAt_eq_some_iff.mp hcut
      have hchars : ∀ c ∈ cut.1, decide (c ≠ q) = true := by
        intro c hc
        apply decide_eq_true
        intro hcq
        rw [hcq] at hc
        exact hnot hc
      have hstop : ∀ c ∈ (q :: cut.2).head?, decide (c ≠ q) = false := by
        intro c hc
        cases hc
        simp
      obtain ⟨htake, hdrop⟩ := Html.takeWhile_append_of_all hchars hstop
      rw [readAttrValue, if_pos hq, htake, hdrop, List.tail_cons]
    next hq =>
      cases h
      have hchars : ∀ c ∈ (q :: t).takeWhile Html.isUnquotedChar, isUnquotedChar c = true := by
        intro c hc
        have hne : c ≠ '/' := by
          intro hslash
          rw [hslash] at hc
          exact hplain rfl hc
        have hchar := List.mem_takeWhile_imp hc
        simp only [Html.isUnquotedChar, isSpace_eq, Bool.not_eq_true', Bool.or_eq_false_iff] at hchar
        simp only [isUnquotedChar, hchar.1, hchar.2, Bool.or_self, Bool.false_or, Bool.not_eq_true']
        exact decide_eq_false hne
      have hstop : ∀ c ∈ ((q :: t).dropWhile Html.isUnquotedChar).head?,
          isUnquotedChar c = false := by
        intro c hc
        have hend := head?_dropWhile c hc
        simp only [Html.isUnquotedChar, isSpace_eq, Bool.not_eq_false'] at hend
        simp only [isUnquotedChar, hend, Bool.true_or, Bool.not_true]
      obtain ⟨htake, hdrop⟩ := Html.takeWhile_append_of_all hchars hstop
      rw [List.takeWhile_append_dropWhile] at htake hdrop
      rw [readAttrValue, if_neg hq, htake, hdrop]

def stepOf : Html.Step → AttrStep
  | .done selfClosing rest => .done selfClosing rest
  | .skip rest => .skip rest
  | .attr a rest => .attr a.name a.value rest

theorem readName_eq (c : Char) (s : Text) (hc : Html.isNameChar c = true) :
    readName (c :: s) = (c :: s.takeWhile Html.isNameChar, s.dropWhile Html.isNameChar) := by
  have hchars : isNameChar = Html.isNameChar := funext isNameChar_eq
  rw [readName, hchars, List.takeWhile_cons, List.dropWhile_cons, hc]
  rfl

theorem readAttr_eq {s : Text} {step : Html.Step} (h : Html.nextStep s = some step)
    (hplain : ∀ a rest, step = .attr a rest →
      a.name.head? ≠ some '=' ∧ (a.unquoted = true → '/' ∉ a.value)) :
    readAttr s = some (stepOf step) := by
  unfold Html.nextStep at h
  rw [readAttr, skipWs, ← isSpace_eq]
  split at h
  next => cases h
  next c rest hs =>
    rw [hs]
    dsimp only
    have hspace : Html.isSpace c = false := by
      apply head?_dropWhile c
      rw [hs]
      rfl
    split at h
    next hgt =>
      cases h
      rw [if_pos hgt]
      rfl
    next hgt =>
      rw [if_neg hgt]
      split at h
      next hslash =>
        split at h
        next hclose =>
          cases h
          rw [if_pos ⟨hslash, hclose⟩]
          rfl
        next hclose =>
          cases h
          have hempty : (readName (c :: rest)).1 = [] := by
            rw [hslash]
            rfl
          rw [if_neg (fun hboth => hclose hboth.2), if_pos hempty]
          rfl
      next hslash =>
        rw [if_neg (fun hboth => hslash hboth.1)]
        have hchar : c ≠ '=' → Html.isNameChar c = true := by
          intro heq
          simp [Html.isNameChar, hspace, hgt, hslash, heq]
        dsimp only at h
        split at h
        next hequals =>
          obtain ⟨⟨value, unquoted, rest'⟩, hvalue, rfl⟩ := Option.map_eq_some_iff.mp h
          obtain ⟨hfirst, hcut⟩ := hplain _ _ rfl
          have hname := readName_eq c rest (hchar fun heq => hfirst (by rw [heq]; rfl))
          rw [hname, if_neg (List.cons_ne_nil _ _), skipWs, ← isSpace_eq, if_pos hequals, skipWs,
            ← isSpace_eq, readAttrValue_eq hvalue hcut]
          rfl
        next hequals =>
          cases h
          obtain ⟨hfirst, -⟩ := hplain _ _ rfl
          have hname := readName_eq c rest (hchar fun heq => hfirst (by rw [heq]; rfl))
          rw [hname, if_neg (List.cons_ne_nil _ _), skipWs, ← isSpace_eq, if_neg hequals]
          rfl

/-- The attributes that the engine cuts from a plain tag are those of HTML. -/
theorem readAttrs_eq_html {read attrs : List Html.Attr} {s rest : Text} {selfClosing : Bool}
    (h : Html.readAttributes read s = some (attrs, selfClosing, rest))
    (hplain : ∀ a ∈ attrs, a.name.head? ≠ some '=' ∧ (a.unquoted = true → '/' ∉ a.value)) :
    readAttrs (read.map fun a => (a.name, a.value)) s =
      .ok (attrs.map fun a => (a.name, a.value), selfClosing, rest) := by
  induction hl : s.length using Nat.strongRecOn generalizing s read with
  | _ n ih =>
    have hstep : ∀ {step}, Html.nextStep s = some step →
        (∀ a rest', step = .attr a rest' → a ∈ attrs) → readAttr s = some (stepOf step) :=
      fun hnext hin => readAttr_eq hnext fun a rest' ha => hplain a (hin a rest' ha)
    rw [Html.readAttributes_eq] at h
    split at h
    next => cases h
    next hnext =>
      cases h
      rw [readAttrs_eq, hstep hnext fun a rest' ha => nomatch ha]
      rfl
    next rest' hnext =>
      have hlen := Html.nextStep_length hnext
      rw [readAttrs_eq, hstep hnext fun a rest' ha => nomatch ha]
      exact ih rest'.length (by rwa [← hl]) h rfl
    next a rest' hnext =>
      have hlen := Html.nextStep_length hnext
      have hread := (Html.readAttributes_prefix h).subset
      have hin : ∀ b t, Html.Step.attr a rest' = .attr b t → b ∈ attrs := by
        intro b t heq
        cases heq
        exact hread (by simp)
      have hrest := ih rest'.length (by rwa [← hl]) h rfl
      rw [List.map_append] at hrest
      rw [readAttrs_eq, hstep hnext hin]
      exact hrest

end Cut

section Values

variable {refs : Html.References}

theorem charRef_apostrophe (s : Text) : Html.charRef refs ("#x27;".toList ++ s) = (['\''], s) := rfl

/-- What `escape_html_into` writes is read back, whatever follows it. -/
theorem decode_escapeHtml_append (s rest : Text) :
    Html.decode refs (escapeHtml s ++ rest) = s ++ Html.decode refs rest := by
  induction s with
  | nil => rfl
  | cons c s ih =>
    have hnamed : ∀ name value : Text, refs.named (name ++ [';']) = some value →
        (name ++ [';']).head? ≠ some '#' →
        Html.decode refs ('&' :: (name ++ ';' :: (escapeHtml s ++ rest))) =
          value ++ (s ++ Html.decode refs rest) := by
      intro name value hname hfirst
      rw [Html.decode_amp, Html.charRef_name hname hfirst, ih]
    have hsplit : escapeHtml (c :: s) ++ rest = escapeHtmlChar c ++ (escapeHtml s ++ rest) := by
      rw [escapeHtml, List.flatMap_cons, List.append_assoc]
      rfl
    rw [hsplit]
    unfold escapeHtmlChar
    split
    next => exact hnamed ['a', 'm', 'p'] _ refs.amp (by decide)
    next => exact hnamed ['l', 't'] _ refs.lt (by decide)
    next => exact hnamed ['g', 't'] _ refs.gt (by decide)
    next => exact hnamed ['q', 'u', 'o', 't'] _ refs.quot (by decide)
    next =>
      have happ : "&#x27;".toList ++ (escapeHtml s ++ rest) =
          '&' :: ("#x27;".toList ++ (escapeHtml s ++ rest)) := rfl
      rw [happ, Html.decode_amp, charRef_apostrophe, ih]
      rfl
    next hamp _ _ _ _ =>
      rw [List.singleton_append, Html.decode_cons hamp, ih]
      rfl

theorem decode_escapeHtml (s : Text) : Html.decode refs (escapeHtml s) = s := by
  have hnil : Html.decode refs [] = [] := by rw [Html.decode]
  have h : Html.decode refs (escapeHtml s ++ []) = s ++ Html.decode refs [] :=
    decode_escapeHtml_append s []
  rwa [hnil, List.append_nil, List.append_nil] at h

theorem notMem_escapeHtml (s : Text) : '"' ∉ escapeHtml s := by
  intro h
  have hescaped : '"' ∈ escapeFor .html s := h
  exact (escapeFor_plain hescaped).2 (by decide) (.inl rfl)

end Values

section Element

variable {F : Type} {parseExpr : Text → Except TemplateError (Expr F)}

/-- What an attribute adds to an element: itself, the name that it sets, or neither. -/
theorem addAttr_attrs {el el' : Element F} {name value : Text}
    (h : addAttr parseExpr el name value = .ok el') :
    el'.tag = el.tag ∧
      el'.staticAttrs = el.staticAttrs ++ (if isStatic name then [(name, value)] else []) ∧
      match attrSet name with
      | none => el'.dynamicAttrs = el.dynamicAttrs
      | some set => ∃ e, parseExpr value = .ok e ∧
          el'.dynamicAttrs = el.dynamicAttrs ++ [(set, e)] := by
  unfold addAttr at h
  split at h
  next hns =>
    cases h
    subst hns
    have hset : attrSet "xmlns:th".toList = none := by decide
    have hstatic : isStatic "xmlns:th".toList = false := by decide
    rw [hset, hstatic]
    exact ⟨rfl, by simp, rfl⟩
  next hns =>
    split at h
    next hplain =>
      cases h
      have hset : attrSet name = none := by
        rw [attrSet, hplain]
        rfl
      have hstatic : isStatic name = true := by
        rw [isStatic, hplain]
        simpa using hns
      rw [hset, hstatic]
      exact ⟨rfl, rfl, rfl⟩
    next directive hdir =>
      have hstatic : isStatic name = false := by
        rw [isStatic, hdir]
        simp
      have hset : attrSet name = if directives.contains directive then none else some directive := by
        rw [attrSet, hdir, Option.filter_some]
        cases directives.contains directive <;> rfl
      have hknown : ∀ word : String, String.ofList directive = word → word.toList ∈ directives →
          directives.contains directive = true := by
        intro word hword hmem
        rw [← hword, String.toList_ofList] at hmem
        exact List.contains_iff_mem.mpr hmem
      rw [hstatic, hset]
      split at h
      case h_11 htext hutext hif hunless heach hinline hauthorize hfragment hinsert hreplace =>
        have hother : directives.contains directive = false := by
          cases hc : directives.contains directive with
          | false => rfl
          | true =>
            obtain ⟨word, hword, heq⟩ := List.mem_map.mp (List.contains_iff_mem.mp hc)
            have hword' : String.ofList directive = word := by rw [← heq, String.ofList_toList]
            simp only [List.mem_cons, List.not_mem_nil, or_false] at hword
            grind
        obtain ⟨e, he, h⟩ := bind_eq_ok_iff.mp h
        cases h
        rw [hother]
        exact ⟨rfl, by simp, e, he, rfl⟩
      -- the other directives leave both lists of attributes as they are
      case h_6 hword | h_8 hword | h_9 hword | h_10 hword =>
        cases h
        rw [hknown _ hword (by decide)]
        exact ⟨rfl, by simp, rfl⟩
      all_goals
        rename_i hword
        obtain ⟨e, -, h⟩ := bind_eq_ok_iff.mp h
        cases h
        rw [hknown _ hword (by decide)]
        exact ⟨rfl, by simp, rfl⟩

variable [StdLib F] {env : Env F} {scope : Scope F}

/-- The attributes that the directives of an element set. -/
def evaluated (env : Env F) (scope : Scope F) (el : Element F) : List (Text × Text) :=
  el.dynamicAttrs.map fun a => (a.1, (eval env scope a.2).text)

def evaluatedSetting (parseExpr : Text → Except TemplateError (Expr F)) (env : Env F)
    (scope : Scope F) (s : Text × Text) : Text × Text :=
  (s.1, settingText parseExpr env scope s.2)

theorem evaluated_addAttr {el el' : Element F} {name value : Text}
    (h : addAttr parseExpr el name value = .ok el') :
    evaluated env scope el' = evaluated env scope el ++
      ((attrSet name).map fun set =>
        evaluatedSetting parseExpr env scope (set, value)).toList := by
  obtain ⟨-, -, hset⟩ := addAttr_attrs h
  cases hname : attrSet name with
  | none =>
    rw [hname] at hset
    have hsame : el'.dynamicAttrs = el.dynamicAttrs := hset
    rw [evaluated, evaluated, hsame, Option.map_none, Option.toList_none, List.append_nil]
  | some set =>
    rw [hname] at hset
    obtain ⟨e, he, hadded⟩ : ∃ e, parseExpr value = .ok e ∧
        el'.dynamicAttrs = el.dynamicAttrs ++ [(set, e)] := hset
    rw [evaluated, evaluated, hadded, List.map_append, Option.map_some, Option.toList_some,
      evaluatedSetting, settingText, he]
    rfl

/-- The attributes of a tag, put into an element. -/
theorem buildElement_attrs {name : Text} {void : Bool} {attrs : List Html.Attr} {el : Element F}
    (h : buildElement parseExpr name void (attrs.map fun a => (a.name, a.value)) = .ok el) :
    el.tag = name ∧
      el.staticAttrs = (attrs.filter fun a => isStatic a.name).map (fun a => (a.name, a.value)) ∧
      evaluated env scope el = (attrs.filterMap fun a => (attrSet a.name).map fun set =>
        (set, a.value)).map (evaluatedSetting parseExpr env scope) := by
  have hloop : ∀ el₀ : Element F,
      (attrs.map fun a => (a.name, a.value)).foldlM
        (fun el a => addAttr parseExpr el a.1 a.2) el₀ = .ok el →
      el.tag = el₀.tag ∧
        el.staticAttrs = el₀.staticAttrs ++
          (attrs.filter fun a => isStatic a.name).map (fun a => (a.name, a.value)) ∧
        evaluated env scope el = evaluated env scope el₀ ++
          (attrs.filterMap fun a => (attrSet a.name).map fun set =>
            (set, a.value)).map (evaluatedSetting parseExpr env scope) := by
    clear h
    induction attrs with
    | nil =>
      intro el₀ h
      cases h
      simp
    | cons a attrs ih =>
      intro el₀ h
      rw [List.map_cons, List.foldlM_cons] at h
      obtain ⟨el₁, hadd, h⟩ := bind_eq_ok_iff.mp h
      obtain ⟨htag, hstatics, hevaluated⟩ := ih el₁ h
      obtain ⟨htag', hstatics', -⟩ := addAttr_attrs hadd
      have hevaluated' : evaluated env scope el₁ = _ := evaluated_addAttr hadd
      refine ⟨htag.trans htag', ?_, ?_⟩
      · rw [hstatics, hstatics', List.append_assoc, List.filter_cons]
        split
        next => rfl
        next => rfl
      · rw [hevaluated, hevaluated', List.append_assoc, List.filterMap_cons]
        cases attrSet a.name with
        | none => rfl
        | some set => rfl
  exact hloop { tag := name, void } h

end Element

section Read

variable {F : Type} [StdLib F] {env : Env F} {scope : Scope F}

/-- The attributes of a start tag as they are written, the values escaped. -/
def emitted (env : Env F) (scope : Scope F) (el : Element F) : List (Text × Text) :=
  (el.staticAttrs ++ evaluated env scope el).map fun a => (a.1, escapeHtml a.2)

theorem text_renderStartTag (el : Element F) :
    Output.text (renderStartTag env scope el) =
      '<' :: (el.tag ++ ((emitted env scope el).flatMap Html.writeAttr ++ ['>'])) := by
  have hstatic : ∀ a : Text × Text,
      (renderAttr a.1 ⟨.template, escapeHtml a.2⟩).flatMap Chunk.text =
        Html.writeAttr (a.1, escapeHtml a.2) := by
    intro a
    simp [renderAttr, engineChunk, Html.writeAttr]
  have hdynamic : ∀ a : Text × Expr F,
      (renderAttr a.1 (escapedChunk env scope .html a.2)).flatMap Chunk.text =
        Html.writeAttr (a.1, escapeHtml (eval env scope a.2).text) := by
    intro a
    simp [renderAttr, engineChunk, Html.writeAttr, escapedChunk, escapeFor]
  simp only [Output.text, renderStartTag, List.cons_append, List.flatMap_cons, List.flatMap_append,
    List.flatMap_assoc, hstatic, hdynamic, emitted, evaluated, List.map_append, List.flatMap_map,
    List.append_assoc, List.map_map]
  simp [engineChunk]

/-- A start tag whose names can be written is read as it was written. -/
theorem readTag_written {name : Text} {attrs : List (Text × Text)}
    (hname : ∀ c ∈ name, Html.isTagNameChar c = true)
    (hattrs : ∀ a ∈ attrs, Html.IsAttrName a.1 ∧ '"' ∉ a.2) (after : Text) :
    Html.readTag (name ++ (attrs.flatMap Html.writeAttr ++ '>' :: after)) =
      some (⟨name, attrs.map fun a => ⟨a.1, a.2, false⟩, false⟩, after) := by
  have hstop : ∀ c ∈ (attrs.flatMap Html.writeAttr ++ '>' :: after).head?,
      Html.isTagNameChar c = false := by
    intro c hc
    cases attrs with
    | nil =>
      cases hc
      decide
    | cons a attrs =>
      cases hc
      decide
  obtain ⟨htake, hdrop⟩ := Html.takeWhile_append_of_all hname hstop
  rw [Html.readTag, htake, hdrop, Html.readAttributes_written hattrs]
  rfl

theorem attribute_written {refs : Html.References} {name : Text} {attrs : List (Text × Text)}
    (key : Text) :
    Html.Tag.attribute refs ⟨name, (attrs.map fun a => (a.1, escapeHtml a.2)).map
        fun a => ⟨a.1, a.2, false⟩, false⟩ key =
      (attrs.find? fun a => toAsciiLowercase a.1 = key).map Prod.snd := by
  rw [Html.Tag.attribute, List.map_map, List.find?_map, Option.map_map]
  congr 1
  funext a
  exact decode_escapeHtml a.2

end Read

section Meaning

variable {F : Type} {parseExpr : Text → Except TemplateError (Expr F)} {s rest : Text}
  {tag : Html.Tag} {el : Element F}

theorem readElement_attrs {r : Read (Dom F) s} (h : readElement parseExpr s = .ok r) :
    ∃ el children rawAttrs selfClosing behind void, r.1.1 = .element el children ∧
      readAttrs [] (readName s).2 = .ok (rawAttrs, selfClosing, behind) ∧
        buildElement parseExpr (readName s).1 void rawAttrs = .ok el := by
  rw [readElement] at h
  dsimp only at h
  split at h
  next => cases h
  next =>
    split at h
    next => cases h
    next rawAttrs selfClosing behind hattrs =>
      obtain ⟨⟨⟨children', rest₁⟩, h₁⟩, hchildren, h⟩ := bind_eq_ok_iff.mp h
      obtain ⟨el', hel, h⟩ := bind_eq_ok_iff.mp h
      cases h
      exact ⟨el', children', rawAttrs, selfClosing, behind, _, rfl, hattrs, hel⟩

theorem readName_tag (hs : Html.readTag s = some (tag, rest)) (hplain : Plain tag) :
    (∀ c ∈ tag.name, Html.isTagNameChar c = true) ∧ (readName s).1 = tag.name ∧
      ∃ selfClosing, Html.readAttributes [] (readName s).2 = some (tag.attrs, selfClosing, rest) := by
  obtain ⟨⟨attrs, selfClosing, rest'⟩, hread, heq⟩ := Option.map_eq_some_iff.mp hs
  cases heq
  have hequals : '=' ∉ s.takeWhile Html.isTagNameChar := hplain.tagName
  have hname : ∀ c ∈ s.takeWhile Html.isTagNameChar, isNameChar c = true := by
    intro c hc
    have hchar := List.mem_takeWhile_imp hc
    have hne : c ≠ '=' := by
      intro heq
      rw [heq] at hc
      exact hequals hc
    rw [isNameChar_eq]
    simp only [Html.isTagNameChar, Bool.not_eq_true', Bool.or_eq_false_iff,
      decide_eq_false_iff_not] at hchar
    simp [Html.isNameChar, hchar, hne]
  have hstop : ∀ c ∈ (s.dropWhile Html.isTagNameChar).head?, isNameChar c = false := by
    intro c hc
    have hend := head?_dropWhile c hc
    rw [isNameChar_eq]
    simp only [Html.isTagNameChar, Bool.not_eq_false', Bool.or_eq_true] at hend
    simp only [Html.isNameChar, Bool.not_eq_false', Bool.or_eq_true]
    exact .inl hend
  obtain ⟨htake, hdrop⟩ := Html.takeWhile_append_of_all hname hstop
  rw [List.takeWhile_append_dropWhile] at htake hdrop
  refine ⟨fun c hc => List.mem_takeWhile_imp hc, htake, selfClosing, ?_⟩
  rw [readName, hdrop]
  exact hread

theorem isAttrName_of_attrSet {name set : Text} (h : attrSet name = some set)
    (hname : Html.IsAttrName name) (hne : name ≠ "th:".toList) : Html.IsAttrName set := by
  obtain ⟨hth, -⟩ := Option.filter_eq_some_iff.mp h
  have hsplit := isPrefixOf?_eq_some hth
  refine ⟨?_, ?_⟩
  · intro hempty
    rw [hempty, List.append_nil] at hsplit
    exact hne hsplit
  · intro c hc
    apply hname.2
    rw [hsplit]
    exact List.mem_append_right _ hc

variable [StdLib F] {env : Env F} {scope : Scope F}

/-- What the start tag of a plain element reads as, the attributes of its source first. -/
theorem emitted_read {children : List (Dom F)} {r : Read (Dom F) s}
    (hs : Html.readTag s = some (tag, rest)) (hplain : Plain tag)
    (h : readElement parseExpr s = .ok r) (hr : r.1.1 = .element el children) :
    el.staticAttrs = (statics tag).map (fun a => (a.name, a.value)) ∧
      evaluated env scope el = (settings tag).map (evaluatedSetting parseExpr env scope) ∧
      ∀ after, Html.readTag
          (el.tag ++ ((emitted env scope el).flatMap Html.writeAttr ++ '>' :: after)) =
        some (⟨el.tag, (emitted env scope el).map fun a => ⟨a.1, a.2, false⟩, false⟩, after) := by
  obtain ⟨htag, hname, selfClosing, hread⟩ := readName_tag hs hplain
  obtain ⟨el', children', rawAttrs, selfClosing', behind, void, hr', hattrs, hel⟩ :=
    readElement_attrs h
  rw [hr] at hr'
  cases hr'
  have hcut := readAttrs_eq_html hread fun a ha => ⟨hplain.attrName a ha, hplain.unquoted a ha⟩
  rw [List.map_nil, hattrs] at hcut
  cases hcut
  have hbuilt : _ ∧ _ ∧ evaluated env scope el = _ := buildElement_attrs hel
  obtain ⟨heltag, hstatics, hevaluated⟩ := hbuilt
  have hnames : ∀ a ∈ tag.attrs, Html.IsAttrName a.name := by
    intro a ha
    rcases Html.isAttrName_of_readAttributes hread a ha with hnone | hattr
    · cases hnone
    · exact hattr (hplain.attrName a ha)
  have hemitted : ∀ a ∈ emitted env scope el, Html.IsAttrName a.1 ∧ '"' ∉ a.2 := by
    intro a ha
    obtain ⟨b, hb, rfl⟩ := List.mem_map.mp ha
    refine ⟨?_, notMem_escapeHtml b.2⟩
    rcases List.mem_append.mp hb with hb | hb
    · rw [hstatics] at hb
      obtain ⟨c, hc, rfl⟩ := List.mem_map.mp hb
      exact hnames c (List.mem_of_mem_filter hc)
    · rw [hevaluated] at hb
      obtain ⟨d, hd, rfl⟩ := List.mem_map.mp hb
      obtain ⟨c, hc, hpair⟩ := List.mem_filterMap.mp hd
      obtain ⟨set, hset, rfl⟩ := Option.map_eq_some_iff.mp hpair
      exact isAttrName_of_attrSet hset (hnames c hc) (hplain.named c hc)
  refine ⟨hstatics, hevaluated, fun after => readTag_written ?_ hemitted after⟩
  rw [heltag, hname]
  exact htag

/-- The start tag of an element means what the template says exactly where every attribute of the
source comes out as it is meant. -/
theorem startTag_meant_iff {refs : Html.References} {children : List (Dom F)}
    {r : Read (Dom F) s} (hs : Html.readTag s = some (tag, rest)) (hplain : Plain tag)
    (h : readElement parseExpr s = .ok r) (hr : r.1.1 = .element el children) (env : Env F)
    (scope : Scope F) (after : Text) :
    (∃ text out, Output.text (renderStartTag env scope el) = '<' :: text ∧
      Html.readTag (text ++ after) = some (out, after) ∧
      ∀ name, out.attribute refs name = meant parseExpr refs env scope tag name) ↔
    Kept parseExpr refs env scope tag := by
  have hemitted : _ ∧ evaluated env scope el = _ ∧ _ := emitted_read hs hplain h hr
  obtain ⟨hstatics, hevaluated, hread⟩ := hemitted
  have htext : ∀ text, Output.text (renderStartTag env scope el) = '<' :: text →
      text ++ after = el.tag ++ ((emitted env scope el).flatMap Html.writeAttr ++ '>' :: after) := by
    intro text heq
    rw [text_renderStartTag] at heq
    rw [← (List.cons.inj heq).2]
    simp
  have hvalue : ∀ name,
      Html.Tag.attribute refs
        ⟨el.tag, (emitted env scope el).map fun a => ⟨a.1, a.2, false⟩, false⟩ name =
        (((statics tag).find? fun a => toAsciiLowercase a.name = name).map Html.Attr.value).or
          (((settings tag).find? fun s => toAsciiLowercase s.1 = name).map fun s =>
            settingText parseExpr env scope s.2) := by
    intro name
    rw [emitted, attribute_written, List.find?_append, hstatics, hevaluated, List.find?_map,
      List.find?_map, Option.map_or, Option.map_map, Option.map_map]
    rfl
  have hname : ∀ name, (((statics tag).find? fun a => toAsciiLowercase a.name = name).map
        Html.Attr.value).or (((settings tag).find? fun s => toAsciiLowercase s.1 = name).map fun s =>
          settingText parseExpr env scope s.2) = meant parseExpr refs env scope tag name ↔
      ∀ a, ((statics tag).find? fun a => toAsciiLowercase a.name = name) = some a →
        a.value = (((settings tag).find? fun s => toAsciiLowercase s.1 = name).map fun s =>
          settingText parseExpr env scope s.2).getD (Html.decode refs a.value) := by
    intro name
    rw [meant]
    cases (statics tag).find? fun a => toAsciiLowercase a.name = name with
    | none =>
      cases (settings tag).find? fun s => toAsciiLowercase s.1 = name with
      | none => simp
      | some s => simp
    | some a =>
      cases (settings tag).find? fun s => toAsciiLowercase s.1 = name with
      | none => simp
      | some s => simp
  constructor
  · intro ⟨text, out, heq, hout, hmeant⟩ name a ha
    rw [htext text heq, hread after] at hout
    cases hout
    exact (hname name).mp ((hvalue name).symm.trans (hmeant name)) a ha
  · intro hkept
    refine ⟨_, _, text_renderStartTag el, ?_, fun name => (hvalue name).trans
      ((hname name).mpr (hkept name))⟩
    rw [htext _ (text_renderStartTag el), hread after]

end Meaning

section Examples

/-- The references that `escape_html_into` writes by name. -/
def fourReferences : Html.References where
  named name :=
    if name = "amp;".toList then some ['&']
    else if name = "lt;".toList then some ['<']
    else if name = "gt;".toList then some ['>']
    else if name = "quot;".toList then some ['"']
    else none
  amp := by decide
  lt := by decide
  gt := by decide
  quot := by decide
  semicolon_last := by
    intro name value h
    split_ifs at h with hamp hlt hgt hquot
    · rw [hamp]
      decide
    · rw [hlt]
      decide
    · rw [hgt]
      decide
    · rw [hquot]
      decide

/-- The one expression of the templates below. -/
def parseUrl (source : Text) : Except TemplateError (Expr Unit) :=
  if source = '$' :: '\x7b' :: "url".toList ++ ['\x7d'] then .ok (.var ["url".toList]) else .error []

def urlEnv : Env Unit :=
  ⟨.map [("url".toList, .str ['/', '&'])], ∅, [], anonymous, none⟩

/-- The link of the module's documentation, with its fallback. -/
def fallbackLink : Text :=
  "a th:href=\"$".toList ++ '\x7b' :: "url".toList ++ '\x7d' :: "\" href='/fallback'>".toList

def fallbackTag : Html.Tag :=
  ⟨['a'], [⟨"th:href".toList, '$' :: '\x7b' :: "url".toList ++ ['\x7d'], false⟩,
    ⟨"href".toList, "/fallback".toList, false⟩], false⟩

/-- A link without a fallback. -/
def plainLink : Text :=
  "a class=x th:href=\"$".toList ++ '\x7b' :: "url".toList ++ '\x7d' :: "\">".toList

def plainTag : Html.Tag :=
  ⟨['a'], [⟨"class".toList, ['x'], true⟩,
    ⟨"th:href".toList, '$' :: '\x7b' :: "url".toList ++ ['\x7d'], false⟩], false⟩

theorem startTag_meant_iff_plainLink : ∃ el : Element Unit,
    (∃ text out, Output.text (renderStartTag urlEnv [] el) = '<' :: text ∧
      Html.readTag (text ++ []) = some (out, []) ∧
      ∀ name, out.attribute fourReferences name =
        meant parseUrl fourReferences urlEnv [] plainTag name) ↔
    Kept parseUrl fourReferences urlEnv [] plainTag := by
  have hs : Html.readTag plainLink = some (plainTag, []) := by decide +kernel
  have hplain : Plain plainTag := by
    constructor
    · decide
    · decide
    · decide
    · decide
  have hok : (readElement parseUrl plainLink).isOk = true := by decide +kernel
  cases h : readElement parseUrl plainLink with
  | error e =>
    rw [h] at hok
    cases hok
  | ok r =>
    obtain ⟨el, children, -, -, -, -, hr, -⟩ := readElement_attrs h
    exact ⟨el, startTag_meant_iff hs hplain h hr urlEnv [] []⟩

/-- The fallback of a link stands before its evaluated address, and wins. -/
theorem not_startTag_meant : ¬ ∀ (F : Type) (_ : StdLib F) (refs : Html.References)
    (parseExpr : Text → Except TemplateError (Expr F)) (s rest : Text) (tag : Html.Tag)
    (r : Read (Dom F) s) (el : Element F) (children : List (Dom F)) (env : Env F)
    (scope : Scope F), Html.readTag s = some (tag, rest) → readElement parseExpr s = .ok r →
      r.1.1 = .element el children →
      ∃ text out, Output.text (renderStartTag env scope el) = '<' :: text ∧
        Html.readTag text = some (out, []) ∧
        ∀ name, out.attribute refs name = meant parseExpr refs env scope tag name := by
  intro hall
  have hs : Html.readTag fallbackLink = some (fallbackTag, []) := by decide +kernel
  have hplain : Plain fallbackTag := by
    constructor
    · decide
    · decide
    · decide
    · decide
  have hok : (readElement parseUrl fallbackLink).isOk = true := by decide +kernel
  cases h : readElement parseUrl fallbackLink with
  | error e =>
    rw [h] at hok
    cases hok
  | ok r =>
    obtain ⟨el, children, -, -, -, -, hr, -⟩ := readElement_attrs h
    obtain ⟨text, out, htext, hout, hmeant⟩ :=
      hall Unit noNumbers fourReferences parseUrl _ _ _ r el children urlEnv [] hs h hr
    have hemitted : _ ∧ evaluated urlEnv [] el = _ ∧ _ := emitted_read hs hplain h hr
    obtain ⟨hstatics, hevaluated, hread⟩ := hemitted
    rw [text_renderStartTag] at htext
    rw [← (List.cons.inj htext).2, hread []] at hout
    cases hout
    have hhref := hmeant "href".toList
    rw [emitted, attribute_written, hstatics, hevaluated] at hhref
    revert hhref
    decide +kernel

end Examples

end Kernway.Kernleaf
