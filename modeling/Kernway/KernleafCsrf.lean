import Kernway.KernleafNames

namespace Kernway.Kernleaf

section Forms

/-- A start tag in the output. -/
def startTag (tag : Text) (attrs : List (Text × Chunk)) : Output :=
  engineChunk "<" :: ⟨.template, tag⟩ :: (attrs.flatMap fun a => renderAttr a.1 a.2) ++
    [engineChunk ">"]

def fieldOpening : Chunk := engineChunk "<input type=\"hidden\" name=\""

/-- The hidden field with a token. -/
def csrfInput (token : Text) : Output :=
  [fieldOpening, ⟨.engine, csrfField⟩, engineChunk "\" value=\"",
    ⟨.escaped .html, escapeHtml token⟩, engineChunk "\">"]

def isGet (method : Text) : Bool := eqIgnoreAsciiCase method "get".toList

/-- A form whose method, as the tag is read, is present and not GET. -/
def Guardable (refs : Html.References) (tag : Text) (attrs : List (Text × Chunk)) : Prop :=
  eqIgnoreAsciiCase tag "form".toList = true ∧
    ∃ read rest method, Html.readTag (Output.text (startTag tag attrs)).tail = some (read, rest) ∧
      read.attribute refs "method".toList = some method ∧
      isGet method = false

/-- Outputs in which the start tag of every such form is directly followed by one hidden field, and
in which no other field stands. -/
inductive Guarded (refs : Html.References) (token : Text) : Output → Prop
  | nil : Guarded refs token []
  | chunk {c : Chunk} {out : Output} : c ≠ engineChunk "<" → c ≠ fieldOpening →
    Guarded refs token out → Guarded refs token (c :: out)
  | tag {tag : Text} {attrs : List (Text × Chunk)} {out : Output} : ¬ Guardable refs tag attrs →
    Guarded refs token out → Guarded refs token (startTag tag attrs ++ out)
  | form {tag : Text} {attrs : List (Text × Chunk)} {out : Output} : Guardable refs tag attrs →
    Guarded refs token out → Guarded refs token (startTag tag attrs ++ csrfInput token ++ out)

variable {refs : Html.References} {token : Text} {out out' : Output}

theorem Guarded.append (h : Guarded refs token out) (h' : Guarded refs token out') :
    Guarded refs token (out ++ out') := by
  induction h with
  | nil => exact h'
  | chunk hopen hfield _ ih => exact .chunk hopen hfield ih
  | tag hnot _ ih =>
    rw [List.append_assoc]
    exact .tag hnot ih
  | form hform _ ih =>
    rw [List.append_assoc]
    exact .form hform ih

/-- Chunks that open neither a tag nor a field. -/
theorem guarded_of_plain (h : ∀ c ∈ out, c ≠ engineChunk "<" ∧ c ≠ fieldOpening) :
    Guarded refs token out := by
  induction out with
  | nil => exact .nil
  | cons c out ih =>
    rw [List.forall_mem_cons] at h
    exact .chunk h.1.1 h.1.2 (ih h.2)

theorem guarded_flatten {outs : List Output} (h : ∀ out ∈ outs, Guarded refs token out) :
    Guarded refs token outs.flatten := by
  induction outs with
  | nil => exact .nil
  | cons out outs ih =>
    rw [List.forall_mem_cons] at h
    rw [List.flatten_cons]
    exact h.1.append (ih h.2)

/-- A start tag in front of an output is found in one way only. -/
theorem startTag_inj {tag tag' : Text} {attrs attrs' : List (Text × Chunk)}
    (h : startTag tag attrs ++ out = startTag tag' attrs' ++ out') :
    tag = tag' ∧ attrs = attrs' ∧ out = out' := by
  have hclose : engineChunk ">" ≠ engineChunk " " := by decide
  simp only [startTag, List.cons_append, List.append_assoc, List.cons.injEq, Chunk.mk.injEq,
    true_and] at h
  obtain ⟨rfl, h⟩ := h
  refine ⟨rfl, ?_⟩
  induction attrs generalizing attrs' with
  | nil =>
    cases attrs' with
    | nil => exact ⟨rfl, (List.cons.inj h).2⟩
    | cons a attrs' => exact absurd (List.cons.inj h).1 hclose
  | cons a attrs ih =>
    cases attrs' with
    | nil => exact absurd (List.cons.inj h).1.symm hclose
    | cons a' attrs' =>
      simp only [List.flatMap_cons, renderAttr, List.cons_append, List.nil_append, List.cons.injEq,
        Chunk.mk.injEq, true_and] at h
      obtain ⟨hname, hvalue, h⟩ := h
      obtain ⟨hattrs, hout⟩ := ih h
      rw [Prod.ext hname hvalue, hattrs]
      exact ⟨rfl, hout⟩

theorem Guarded.field_behind {tag : Text} {attrs : List (Text × Chunk)}
    (h : Guarded refs token (startTag tag attrs ++ out)) (hform : Guardable refs tag attrs) :
    csrfInput token <+: out := by
  generalize hwhole : startTag tag attrs ++ out = whole at h
  cases h with
  | nil => cases hwhole
  | chunk hopen _ _ =>
    cases hwhole
    exact absurd rfl hopen
  | tag hnot _ =>
    obtain ⟨rfl, rfl, -⟩ := startTag_inj hwhole
    exact absurd hform hnot
  | form _ _ =>
    rw [List.append_assoc] at hwhole
    obtain ⟨-, -, hout⟩ := startTag_inj hwhole
    exact ⟨_, hout.symm⟩

theorem plain_of_origin {c : Chunk} (h : c.origin ≠ .engine) :
    c ≠ engineChunk "<" ∧ c ≠ fieldOpening := by
  constructor
  · intro heq
    rw [heq] at h
    exact h rfl
  · intro heq
    rw [heq] at h
    exact h rfl

end Forms

section Rendered

variable {F : Type} [StdLib F]

/-- The scopes in which an element is rendered: its own, or one for each item of its sequence. -/
def Iterates (env : Env F) (el : Element F) (scope scope' : Scope F) : Prop :=
  match el.thEach with
  | some (var, seq) => ∃ item ∈ ((eval env scope seq).asSeq).getD [], scope' = (var, item) :: scope
  | none => scope' = scope

/-- An element comes to be rendered where its nodes are, with so many levels of fragments left: in
this scope, it is shown and no fragment takes its place. -/
structure Opened (env : Env F) (nodes : List (Dom F)) (scope : Scope F) (el : Element F)
    (children : List (Dom F)) (scope' : Scope F) : Prop where
  mem : .element el children ∈ nodes
  iterates : Iterates env el scope scope'
  shown : isShown env scope' el = true

/-- Between the tags of the element stand its children. -/
structure Element.ShowsChildren (el : Element F) : Prop where
  replace : el.thReplace = none
  void : el.void = false
  insert : el.thInsert = none
  text : el.thText = none
  utext : el.thUtext = none

/-- The fragment takes the element's place, or stands between its tags. -/
def Element.ShowsFragment (el : Element F) (frag : FragmentRef) : Prop :=
  el.thReplace = some frag ∨ el.thReplace = none ∧ el.void = false ∧ el.thInsert = some frag

/-- The start tags that are emitted for nodes: those of the page, of each iteration, and of the
fragments that are inserted or take an element's place. -/
inductive Emitted (env : Env F) (templates : Templates F) :
    Nat → List (Dom F) → Scope F → Element F → Scope F → Prop
  | here {levels : Nat} {nodes : List (Dom F)} {scope scope' : Scope F} {el : Element F}
      {children : List (Dom F)} : Opened env nodes scope el children scope' →
    el.thReplace = none → Emitted env templates levels nodes scope el scope'
  | child {levels : Nat} {nodes : List (Dom F)} {scope scope' scope'' : Scope F}
      {el el' : Element F} {children : List (Dom F)} : Opened env nodes scope el children scope' →
    el.ShowsChildren → Emitted env templates levels children scope' el' scope'' →
    Emitted env templates levels nodes scope el' scope''
  | fragment {levels : Nat} {nodes nodes' : List (Dom F)} {scope scope' scope'' : Scope F}
      {el el' : Element F} {children : List (Dom F)} {frag : FragmentRef} :
    Opened env nodes scope el children scope' → el.ShowsFragment frag →
    resolveFragment templates frag = some nodes' →
    Emitted env templates levels nodes' scope' el' scope'' →
    Emitted env templates (levels + 1) nodes scope el' scope''

variable {env : Env F} {templates : Templates F} {levels : Nat}

theorem Opened.mono {nodes nodes' children : List (Dom F)} {scope scope' : Scope F}
    {el : Element F} (h : Opened env nodes scope el children scope') (hsub : nodes ⊆ nodes') :
    Opened env nodes' scope el children scope' :=
  ⟨hsub h.mem, h.iterates, h.shown⟩

theorem Emitted.mono {nodes nodes' : List (Dom F)} {scope scope' : Scope F} {el : Element F}
    (h : Emitted env templates levels nodes scope el scope') (hsub : nodes ⊆ nodes') :
    Emitted env templates levels nodes' scope el scope' := by
  cases h with
  | here hopened hreplace => exact .here (hopened.mono hsub) hreplace
  | child hopened hshows hchild => exact .child (hopened.mono hsub) hshows hchild
  | fragment hopened hshows hnodes hfrag => exact .fragment (hopened.mono hsub) hshows hnodes hfrag

end Rendered

section Covered

variable {F : Type} [StdLib F]

def isMethod (name : Text) : Bool := toAsciiLowercase name = "method".toList

/-- A form that gets its field as the browser sees it: with a static method it is not closed in its
start tag, unless it is GET; without one, no directive sets another method than GET. A bare `th:` is
not on it. -/
def Covered (env : Env F) (scope : Scope F) (el : Element F) : Prop :=
  eqIgnoreAsciiCase el.tag "form".toList = true →
    (∀ a ∈ el.dynamicAttrs, a.1 ≠ []) ∧
    match el.staticAttrs.find? fun a => isMethod a.1 with
    | some a => el.void = true → isGet a.2 = true
    | none => ∀ a, (el.dynamicAttrs.find? fun a => isMethod a.1) = some a →
        isGet (eval env scope a.2).text = true

variable {env : Env F} {scope : Scope F} {el : Element F} {refs : Html.References}

/-- The attributes of an element, as chunks of the output. -/
def writtenAttrs (env : Env F) (scope : Scope F) (el : Element F) : List (Text × Chunk) :=
  (el.staticAttrs.map fun a => (a.1, ⟨.template, escapeHtml a.2⟩)) ++
    el.dynamicAttrs.map fun a => (a.1, escapedChunk env scope .html a.2)

theorem renderStartTag_eq (env : Env F) (scope : Scope F) (el : Element F) :
    renderStartTag env scope el = startTag el.tag (writtenAttrs env scope el) := by
  simp only [renderStartTag, startTag, writtenAttrs, List.flatMap_append, List.flatMap_map,
    List.cons_append, List.append_assoc]

/-- The method of a form, as the browser reads its start tag. -/
def methodRead (env : Env F) (scope : Scope F) (el : Element F) : Option Text :=
  ((el.staticAttrs.find? fun a => isMethod a.1).map Prod.snd).or
    ((el.dynamicAttrs.find? fun a => isMethod a.1).map fun a => (eval env scope a.2).text)

theorem guardable_iff (hel : el.Spelled) (hbare : ∀ a ∈ el.dynamicAttrs, a.1 ≠ []) :
    Guardable refs el.tag (writtenAttrs env scope el) ↔
      eqIgnoreAsciiCase el.tag "form".toList = true ∧
        ∃ method, methodRead env scope el = some method ∧
          isGet method = false := by
  have htag : ∀ c ∈ el.tag, Html.isTagNameChar c = true := by
    intro c hc
    obtain ⟨hspace, hgt, hslash, -⟩ := Html.isNameChar_plain (hel.tag c hc)
    simp [Html.isTagNameChar, hspace, hgt, hslash]
  have hemitted : ∀ a ∈ emitted env scope el, Html.IsAttrName a.1 ∧ '"' ∉ a.2 := by
    intro a ha
    obtain ⟨b, hb, rfl⟩ := List.mem_map.mp ha
    refine ⟨?_, notMem_escapeHtml b.2⟩
    rcases List.mem_append.mp hb with hb | hb
    · exact hel.statics b hb
    · obtain ⟨d, hd, rfl⟩ := List.mem_map.mp hb
      exact ⟨hbare d hd, hel.dynamics d hd⟩
  have hread := readTag_written htag hemitted []
  have htext : (Output.text (startTag el.tag (writtenAttrs env scope el))).tail =
      el.tag ++ ((emitted env scope el).flatMap Html.writeAttr ++ ['>']) := by
    rw [← renderStartTag_eq, text_renderStartTag, List.tail_cons]
  have hmethod : Html.Tag.attribute refs
      ⟨el.tag, (emitted env scope el).map fun a => ⟨a.1, a.2, false⟩, false⟩ "method".toList =
        methodRead env scope el := by
    rw [emitted, attribute_written, List.find?_append, evaluated, List.find?_map, Option.map_or,
      Option.map_map]
    rfl
  unfold Guardable
  rw [htext, hread]
  constructor
  · rintro ⟨hform, read, rest, method, heq, hattr, hget⟩
    cases heq
    exact ⟨hform, method, hmethod.symm.trans hattr, hget⟩
  · rintro ⟨hform, method, hattr, hget⟩
    exact ⟨hform, _, _, method, rfl, hmethod.trans hattr, hget⟩

omit [StdLib F] in
theorem isStateChangingForm_eq (el : Element F) :
    isStateChangingForm el = ((el.staticAttrs.find? fun a => isMethod a.1).any fun a =>
      !isGet a.2) := by
  have hname : ∀ name : Text, eqIgnoreAsciiCase name "method".toList = isMethod name := by
    intro name
    have hlower : toAsciiLowercase "method".toList = "method".toList := by decide
    rw [eqIgnoreAsciiCase, hlower, isMethod, beq_eq_decide]
  unfold isStateChangingForm
  simp only [hname]
  unfold isGet
  cases el.staticAttrs.find? fun a => isMethod a.1 with
  | none => rfl
  | some a => rfl

variable {token : Text}

/-- What stands behind the start tag of a covered element. -/
theorem renderCsrf_eq (refs : Html.References) (htoken : env.csrf = some token) (hel : el.Spelled)
    (hcov : Covered env scope el) :
    (Guardable refs el.tag (writtenAttrs env scope el) →
      el.void = false ∧ renderCsrf env el = csrfInput token) ∧
    (¬ Guardable refs el.tag (writtenAttrs env scope el) → el.void = false →
      renderCsrf env el = []) := by
  unfold renderCsrf
  rw [htoken]
  dsimp only
  by_cases hform : eqIgnoreAsciiCase el.tag "form".toList = true
  · obtain ⟨hbare, hcov⟩ := hcov hform
    rw [guardable_iff hel hbare, hform, isStateChangingForm_eq, Bool.true_and, methodRead]
    cases hstatic : el.staticAttrs.find? fun a => isMethod a.1 with
    | some a =>
      rw [hstatic] at hcov
      have hvoid : el.void = true → isGet a.2 = true := hcov
      cases hget : isGet a.2 with
      | true => simp [hget]
      | false =>
        have hopen : el.void = false := by
          cases hv : el.void with
          | false => rfl
          | true =>
            rw [hvoid hv] at hget
            cases hget
        simp [hget, hopen, csrfInput, fieldOpening]
    | none =>
      rw [hstatic] at hcov
      have hdynamic : ∀ a, (el.dynamicAttrs.find? fun a => isMethod a.1) = some a →
          isGet (eval env scope a.2).text = true := hcov
      cases hset : el.dynamicAttrs.find? fun a => isMethod a.1 with
      | none => simp
      | some a => simp [hdynamic a hset]
  · have hnot : ¬ Guardable refs el.tag (writtenAttrs env scope el) := fun h => hform h.1
    have hform' : eqIgnoreAsciiCase el.tag "form".toList = false := by simpa using hform
    rw [hform', Bool.false_and, if_neg Bool.false_ne_true]
    exact ⟨fun h => absurd h hnot, fun _ _ => rfl⟩

/-- An element that is emitted: its start tag is guarded, whatever guarded output follows. -/
theorem guarded_startTag (refs : Html.References) (htoken : env.csrf = some token) (hel : el.Spelled)
    (hcov : Covered env scope el) {out : Output} (hout : Guarded refs token out) :
    (el.void = true → Guarded refs token (renderStartTag env scope el ++ out)) ∧
      (el.void = false →
        Guarded refs token (renderStartTag env scope el ++ renderCsrf env el ++ out)) := by
  obtain ⟨hfield, hnone⟩ := renderCsrf_eq refs htoken hel hcov
  rw [renderStartTag_eq]
  by_cases hform : Guardable refs el.tag (writtenAttrs env scope el)
  · obtain ⟨hopen, hcsrf⟩ := hfield hform
    refine ⟨fun hvoid => ?_, fun _ => ?_⟩
    · rw [hopen] at hvoid
      cases hvoid
    · rw [hcsrf]
      exact .form hform hout
  · refine ⟨fun _ => .tag hform hout, fun hopen => ?_⟩
    rw [hnone hform hopen, List.append_nil]
    exact .tag hform hout

end Covered

section Run

variable {F : Type} [StdLib F] {env : Env F} {templates : Templates F} {descend : Descend F}
  {refs : Html.References} {token : Text} {levels : Nat}

/-- What is asked of each element that is emitted. -/
structure Sound (env : Env F) (el : Element F) (scope : Scope F) : Prop where
  spelled : el.Spelled
  covered : Covered env scope el

/-- The rendering one level down, of nodes of which only such elements are emitted. -/
def GuardedBelow (env : Env F) (templates : Templates F) (descend : Descend F)
    (refs : Html.References) (token : Text) (levels : Nat) : Prop :=
  ∀ render, descend = some render → ∃ below, levels = below + 1 ∧
    ∀ nodes scope mode out, render nodes scope mode = .ok out →
      (∀ el scope', Emitted env templates below nodes scope el scope' → Sound env el scope') →
      Guarded refs token out

theorem renderFragment_guarded (hbelow : GuardedBelow env templates descend refs token levels)
    {nodes children : List (Dom F)} {scope scope' : Scope F} {el : Element F}
    (hopened : Opened env nodes scope el children scope') {frag : FragmentRef}
    (hshows : el.ShowsFragment frag)
    (hsound : ∀ el' scope'', Emitted env templates levels nodes scope el' scope'' →
      Sound env el' scope'') {mode : InlineMode} {out : Output}
    (h : renderFragment templates descend frag scope' mode = .ok out) :
    Guarded refs token out := by
  unfold renderFragment at h
  split at h
  next => cases h
  next render =>
    obtain ⟨below, rfl, hrender⟩ := hbelow render rfl
    split at h
    next nodes' hnodes =>
      refine hrender nodes' scope' mode out h fun el' scope'' hemitted => ?_
      exact hsound el' scope'' (.fragment hopened hshows hnodes hemitted)
    next =>
      cases h
      exact .nil

theorem renderInstance_guarded (htoken : env.csrf = some token)
    (hbelow : GuardedBelow env templates descend refs token levels)
    {nodes children : List (Dom F)} {scope scope' : Scope F} {el : Element F}
    (hmem : Dom.element el children ∈ nodes) (hiterates : Iterates env el scope scope')
    (hsound : ∀ el' scope'', Emitted env templates levels nodes scope el' scope'' →
      Sound env el' scope'')
    {body : Scope F → InlineMode → Except TemplateError Output}
    (hbody : ∀ mode out, body scope' mode = .ok out →
      (∀ el' scope'', Emitted env templates levels children scope' el' scope'' →
        Sound env el' scope'') → Guarded refs token out)
    {mode : InlineMode} {out : Output}
    (h : renderInstance env templates descend el body mode scope' = .ok out) :
    Guarded refs token out := by
  unfold renderInstance at h
  split at h
  next hshown =>
    have hopened : Opened env nodes scope el children scope' := ⟨hmem, hiterates, hshown⟩
    split at h
    next frag hreplace =>
      exact renderFragment_guarded hbelow hopened (.inl hreplace) hsound h
    next hreplace =>
      obtain ⟨hel, hcov⟩ := hsound el scope' (.here hopened hreplace)
      split at h
      next hvoid =>
        cases h
        have htag := (guarded_startTag refs htoken hel hcov .nil).1 hvoid
        rwa [List.append_nil] at htag
      next hvoid =>
        rw [Bool.not_eq_true] at hvoid
        obtain ⟨inner, hinner, h⟩ := bind_eq_ok_iff.mp h
        cases h
        have hguarded : Guarded refs token inner := by
          unfold renderBody at hinner
          split at hinner
          next frag hinsert =>
            exact renderFragment_guarded hbelow hopened (.inr ⟨hreplace, hvoid, hinsert⟩) hsound
              hinner
          next e _ _ =>
            cases hinner
            exact guarded_of_plain (by simp [escapedChunk, engineChunk, fieldOpening])
          next e _ _ =>
            cases hinner
            exact guarded_of_plain (by simp [engineChunk, fieldOpening])
          next hinsert htext hutext =>
            refine hbody _ _ hinner fun el' scope'' hemitted => hsound el' scope'' ?_
            exact .child hopened ⟨hreplace, hvoid, hinsert, htext, hutext⟩ hemitted
        have hend : Guarded refs token (renderEndTag el) :=
          guarded_of_plain (by simp [renderEndTag, engineChunk, fieldOpening])
        rw [List.append_assoc]
        exact (guarded_startTag refs htoken hel hcov (hguarded.append hend)).2 hvoid
  next =>
    cases h
    exact .nil

theorem renderElement_guarded (htoken : env.csrf = some token)
    (hbelow : GuardedBelow env templates descend refs token levels)
    {nodes children : List (Dom F)} {scope : Scope F} {el : Element F}
    (hmem : Dom.element el children ∈ nodes)
    (hsound : ∀ el' scope'', Emitted env templates levels nodes scope el' scope'' →
      Sound env el' scope'')
    {body : Scope F → InlineMode → Except TemplateError Output}
    (hbody : ∀ scope' mode out, body scope' mode = .ok out →
      (∀ el' scope'', Emitted env templates levels children scope' el' scope'' →
        Sound env el' scope'') → Guarded refs token out)
    {mode : InlineMode} {out : Output}
    (h : renderElement env templates descend el body mode scope = .ok out) :
    Guarded refs token out := by
  unfold renderElement at h
  split at h
  next var seq heach =>
    obtain ⟨outs, houts, h⟩ := bind_eq_ok_iff.mp h
    cases h
    refine guarded_flatten fun o ho => ?_
    obtain ⟨item, hitem, hrender⟩ := exists_of_mem_mapM houts ho
    have hiterates : Iterates env el scope ((var, item) :: scope) := by
      unfold Iterates
      rw [heach]
      exact ⟨item, hitem, rfl⟩
    exact renderInstance_guarded htoken hbelow hmem hiterates hsound (hbody _) hrender
  next heach =>
    have hiterates : Iterates env el scope scope := by
      unfold Iterates
      rw [heach]
    exact renderInstance_guarded htoken hbelow hmem hiterates hsound (hbody scope) h

mutual

theorem renderNode_guarded (htoken : env.csrf = some token)
    (hbelow : GuardedBelow env templates descend refs token levels) (d : Dom F)
    {scope : Scope F} {mode : InlineMode} {out : Output}
    (h : renderNode env templates descend d scope mode = .ok out)
    (hsound : ∀ el scope', Emitted env templates levels [d] scope el scope' →
      Sound env el scope') : Guarded refs token out := by
  match d with
  | .text s | .declaration s =>
    cases h
    exact guarded_of_plain (by simp [engineChunk, fieldOpening])
  | .comment s =>
    cases h
    exact guarded_of_plain (by simp [engineChunk, fieldOpening])
  | .inline parts =>
    cases h
    refine guarded_of_plain fun c hc => ?_
    obtain ⟨part, -, rfl⟩ := List.mem_map.mp hc
    apply plain_of_origin
    cases part with
    | lit s => simp
    | escaped e => simp [escapedChunk]
    | raw e => simp
  | .element el children =>
    refine renderElement_guarded htoken hbelow (List.mem_singleton_self _) hsound ?_ h
    intro scope' mode' out' hout hchildren
    exact renderNodesWith_guarded htoken hbelow children hout hchildren

theorem renderNodesWith_guarded (htoken : env.csrf = some token)
    (hbelow : GuardedBelow env templates descend refs token levels) (nodes : List (Dom F))
    {scope : Scope F} {mode : InlineMode} {out : Output}
    (h : renderNodesWith env templates descend nodes scope mode = .ok out)
    (hsound : ∀ el scope', Emitted env templates levels nodes scope el scope' →
      Sound env el scope') : Guarded refs token out := by
  match nodes with
  | [] =>
    cases h
    exact .nil
  | node :: nodes =>
    unfold renderNodesWith at h
    obtain ⟨first, hfirst, h⟩ := bind_eq_ok_iff.mp h
    obtain ⟨rest, hrest, h⟩ := bind_eq_ok_iff.mp h
    cases h
    have hnode := renderNode_guarded htoken hbelow node hfirst fun el scope' hemitted =>
      hsound el scope' (hemitted.mono (by simp))
    have hnodes := renderNodesWith_guarded htoken hbelow nodes hrest fun el scope' hemitted =>
      hsound el scope' (hemitted.mono (by simp))
    exact hnode.append hnodes

end

theorem renderNodes_guarded (htoken : env.csrf = some token) {nodes : List (Dom F)}
    {scope : Scope F} {mode : InlineMode} {out : Output}
    (h : renderNodes env templates levels nodes scope mode = .ok out)
    (hsound : ∀ el scope', Emitted env templates levels nodes scope el scope' →
      Sound env el scope') : Guarded refs token out := by
  induction levels generalizing nodes scope mode out with
  | zero =>
    refine renderNodesWith_guarded htoken ?_ nodes h hsound
    intro render hnone
    cases hnone
  | succ levels ih =>
    refine renderNodesWith_guarded htoken ?_ nodes h hsound
    intro render hrender
    cases hrender
    exact ⟨levels, rfl, fun nodes' scope' mode' out' hout hsound' => ih hout hsound'⟩

/-- What holds of every node of the templates holds of the elements that are emitted. -/
theorem Emitted.every {p : Dom F → Prop} (ht : ∀ e ∈ templates.entries, ∀ d ∈ e.2, d.Every p)
    {nodes : List (Dom F)} {scope scope' : Scope F} {el : Element F}
    (h : Emitted env templates levels nodes scope el scope') (hnodes : ∀ d ∈ nodes, d.Every p) :
    ∃ children, p (.element el children) := by
  induction h with
  | here hopened _ => exact ⟨_, (hnodes _ hopened.mem).here⟩
  | child hopened _ _ ih => exact ih (hnodes _ hopened.mem).ofChild
  | fragment _ _ hresolve _ ih => exact ih (every_resolveFragment ht hresolve)

end Run

section Page

variable {F : Type} [StdLib F]

/-- The start tags of a page. -/
def EmittedOn (engine : Kernleaf F) (env : Env F) (template : Text) (el : Element F)
    (scope : Scope F) : Prop :=
  ∃ dom, engine.templates.lookup template = some dom ∧
    Emitted env engine.templates maxFragmentDepth dom [] el scope

/-- Where every element that is emitted is covered, every form of the page gets its field, and
nothing else does. -/
theorem page_guarded {parseExpr : Text → Except TemplateError (Expr F)} {engine : Kernleaf F}
    {sources : List Text} (hb : Built parseExpr engine sources) (refs : Html.References)
    {template token : Text} {model : Value F} {authz : Option Authorization} {out : Output}
    (h : engine.renderChunks template model ⟨authz, some token⟩ = .ok out)
    (hcov : ∀ el scope, EmittedOn engine
      ⟨model, engine.messages, [], authz.getD anonymous, some token⟩ template el scope →
      Covered ⟨model, engine.messages, [], authz.getD anonymous, some token⟩ scope el) :
    Guarded refs token out := by
  unfold renderChunks at h
  split at h
  next dom hdom =>
    refine renderNodes_guarded rfl h fun el scope hemitted => ?_
    have hspelled := hb.every shape_spelled
    have hnodes := hspelled ⟨template, dom⟩ (AList.mem_lookup_iff.mp hdom)
    obtain ⟨children, hel⟩ := hemitted.every hspelled hnodes
    exact ⟨hel, hcov el scope ⟨dom, hdom, hemitted⟩⟩
  next => cases h

/-- A form that is written with its method and its end tag. -/
def Element.plainForm (el : Element F) : Bool :=
  !eqIgnoreAsciiCase el.tag "form".toList ||
    (!el.void && (el.staticAttrs.find? fun a => isMethod a.1).isSome &&
      el.dynamicAttrs.all fun a => a.1 != [])

mutual

def Dom.plainForms : Dom F → Bool
  | .element el children => el.plainForm && plainForms children
  | _ => true

def plainForms : List (Dom F) → Bool
  | [] => true
  | node :: nodes => node.plainForms && plainForms nodes

end

def Dom.PlainForm : Dom F → Prop
  | .element el _ => el.plainForm = true
  | _ => True

omit [StdLib F] in
mutual

theorem every_plainForms (d : Dom F) (h : d.plainForms = true) : d.Every Dom.PlainForm := by
  match d with
  | .text _ | .comment _ | .declaration _ | .inline _ =>
    exact .intro trivial (by simp [Dom.children])
  | .element el children =>
    obtain ⟨hel, hchildren⟩ := Bool.and_eq_true_iff.mp h
    exact .intro hel (every_plainForms_nodes children hchildren)

theorem every_plainForms_nodes (nodes : List (Dom F)) (h : plainForms nodes = true) :
    ∀ d ∈ nodes, d.Every Dom.PlainForm := by
  match nodes with
  | [] => simp
  | node :: nodes =>
    obtain ⟨hnode, hnodes⟩ := Bool.and_eq_true_iff.mp h
    intro d hd
    rcases List.mem_cons.mp hd with hd | hd
    · rw [hd]
      exact every_plainForms node hnode
    · exact every_plainForms_nodes nodes hnodes d hd

end

theorem covered_of_plainForm {env : Env F} {scope : Scope F} {el : Element F}
    (h : el.plainForm = true) : Covered env scope el := by
  intro hform
  rw [Element.plainForm, hform, Bool.not_true, Bool.false_or] at h
  simp only [Bool.and_eq_true, Bool.not_eq_true', List.all_eq_true, bne_iff_ne] at h
  obtain ⟨⟨hopen, hmethod⟩, hbare⟩ := h
  refine ⟨hbare, ?_⟩
  cases hstatic : el.staticAttrs.find? fun a => isMethod a.1 with
  | none =>
    rw [hstatic] at hmethod
    cases hmethod
  | some a =>
    intro hvoid
    rw [hopen] at hvoid
    cases hvoid

/-- Templates in which every form is written so have all their forms covered. -/
theorem covered_of_plainForms {engine : Kernleaf F} {env : Env F} {template : Text}
    (h : engine.templates.entries.all (fun e => plainForms e.2) = true) :
    ∀ el scope, EmittedOn engine env template el scope → Covered env scope el := by
  have hforms : ∀ e ∈ engine.templates.entries, ∀ d ∈ e.2, d.Every Dom.PlainForm := fun e he =>
    every_plainForms_nodes e.2 (List.all_eq_true.mp h e he)
  intro el scope ⟨dom, hdom, hemitted⟩
  obtain ⟨children, hel⟩ := hemitted.every hforms
    (hforms ⟨template, dom⟩ (AList.mem_lookup_iff.mp hdom))
  exact covered_of_plainForm hel

end Page

/-- A form with a method, in a page of its own. -/
def postPage : Text :=
  "<form method=\"post\"><input type=\"hidden\" name=\"_csrf\" value=\"t\">x</form>".toList

theorem page_guarded_post :
    ∃ out : Output, out.text = postPage ∧ Guarded fourReferences ['t'] out := by
  have hrun : (do
      let engine : Kernleaf Unit ← add parseUrl {} [] "<form method=post>x".toList
      let out ← engine.renderChunks [] .null ⟨none, some ['t']⟩
      .ok (engine.templates.entries.all (fun e => plainForms e.2), out.text)) =
      Except.ok (true, postPage) := by decide +kernel
  obtain ⟨engine, hadd, hrun⟩ := bind_eq_ok_iff.mp hrun
  obtain ⟨out, hout, hrun⟩ := bind_eq_ok_iff.mp hrun
  obtain ⟨hforms, htext⟩ := Prod.mk.inj (Except.ok.inj hrun)
  have hguarded := page_guarded (.add .new hadd) fourReferences hout (covered_of_plainForms hforms)
  exact ⟨out, htext, hguarded⟩

def evaluatedMethod : Text :=
  "<form th:method=\"$".toList ++ '\x7b' :: "url".toList ++ '\x7d' :: "\">".toList

/-- A form whose method is set by a directive alone has no field. -/
theorem not_page_guarded : ¬ ∀ (F : Type) (_ : StdLib F)
    (parseExpr : Text → Except TemplateError (Expr F)) (engine : Kernleaf F) (sources : List Text),
    Built parseExpr engine sources → ∀ (refs : Html.References) (template token : Text)
      (model : Value F) (authz : Option Authorization) (out : Output),
      engine.renderChunks template model ⟨authz, some token⟩ = .ok out → Guarded refs token out := by
  intro hall
  have hrun : (do
      let engine : Kernleaf Unit ← add parseUrl {} [] evaluatedMethod
      engine.renderChunks [] (.map [("url".toList, .str "post".toList)]) ⟨none, some ['t']⟩) =
      Except.ok (startTag "form".toList
        [("method".toList, ⟨.escaped .html, "post".toList⟩)] ++
          [engineChunk "</", ⟨.template, "form".toList⟩, engineChunk ">"]) := by decide +kernel
  obtain ⟨engine, hadd, hout⟩ := bind_eq_ok_iff.mp hrun
  have hguarded := hall Unit noNumbers _ engine _ (.add .new hadd) fourReferences _ _ _ _ _ hout
  have hform : Guardable fourReferences "form".toList
      [("method".toList, ⟨.escaped .html, "post".toList⟩)] := by
    refine ⟨by decide, ⟨"form".toList, [⟨"method".toList, "post".toList, false⟩], false⟩, [],
      "post".toList, ?_, ?_, by decide⟩
    · decide +kernel
    · decide +kernel
  have hfield := hguarded.field_behind hform
  revert hfield
  decide

end Kernway.Kernleaf
