import Kernway.KernleafRender
import Kernway.Results

namespace Kernway.Kernleaf

variable {F : Type}

/-- Something holds of a node and of every node below it. -/
inductive Dom.Every (p : Dom F → Prop) : Dom F → Prop
  | intro {d : Dom F} : p d → (∀ c ∈ d.children, Every p c) → Every p d

theorem Dom.Every.here {p : Dom F → Prop} {d : Dom F} (h : d.Every p) : p d := by
  cases h with
  | intro hp _ => exact hp

theorem Dom.Every.ofChild {p : Dom F → Prop} {d : Dom F} (h : d.Every p) :
    ∀ c ∈ d.children, c.Every p := by
  cases h with
  | intro _ hc => exact hc

theorem Dom.Every.and {p q : Dom F → Prop} {d : Dom F} (hp : d.Every p) (hq : d.Every q) :
    d.Every fun d => p d ∧ q d := by
  induction hp with
  | intro h _ ih => exact .intro ⟨h, hq.here⟩ fun c hc => ih c hc (hq.ofChild c hc)

def InlinePart.escapes : InlinePart F → Bool
  | raw _ => false
  | _ => true

mutual

/-- Whether a template uses neither `th:utext` nor unescaped inline output. -/
def Dom.escapes : Dom F → Bool
  | .inline parts => parts.all InlinePart.escapes
  | .element el children => el.thUtext.isNone && escapesAll children
  | _ => true

def escapesAll : List (Dom F) → Bool
  | [] => true
  | node :: nodes => node.escapes && escapesAll nodes

end

def escapes (engine : Kernleaf F) : Bool := engine.templates.entries.all fun e => escapesAll e.2

def Dom.Escapes : Dom F → Prop
  | inline parts => ∀ part ∈ parts, ∀ e, part ≠ .raw e
  | element el _ => el.thUtext = none
  | _ => True

mutual

theorem every_escapes (d : Dom F) (h : d.escapes) : d.Every Dom.Escapes := by
  match d with
  | .text _ | .comment _ | .declaration _ => exact .intro trivial (by simp [Dom.children])
  | .inline parts =>
    refine .intro (fun part hpart e he => ?_) (by simp [Dom.children])
    subst he
    simpa [InlinePart.escapes] using List.all_eq_true.mp h _ hpart
  | .element el children =>
    obtain ⟨hutext, hchildren⟩ := Bool.and_eq_true_iff.mp h
    exact .intro (Option.isNone_iff_eq_none.mp hutext) (every_escapesAll children hchildren)

theorem every_escapesAll (nodes : List (Dom F)) (h : escapesAll nodes) :
    ∀ d ∈ nodes, d.Every Dom.Escapes := by
  match nodes with
  | [] => simp
  | node :: nodes =>
    obtain ⟨hnode, hnodes⟩ := Bool.and_eq_true_iff.mp h
    intro d hd
    rcases List.mem_cons.mp hd with hd | hd
    · rw [hd]
      exact every_escapes node hnode
    · exact every_escapesAll nodes hnodes d hd

end

/-- A node whose own texts, which are emitted as they are, satisfy `piece`. -/
def Dom.Written (piece : Text → Prop) : Dom F → Prop
  | text s | comment s | declaration s => piece s
  | inline parts => ∀ s, .lit s ∈ parts → piece s
  | element el _ =>
    piece el.tag ∧ (∀ a ∈ el.staticAttrs, piece a.1) ∧ ∀ a ∈ el.dynamicAttrs, piece a.1

def engineMarkup : List Text :=
  ["<", " ", "=\"", "\"", ">", "</", "<!--", "-->", "_csrf", "<input type=\"hidden\" name=\"",
    "\" value=\"", "\">"].map String.toList

/-- A part of the output that is what its origin says. -/
def Chunk.From (piece : Text → Prop) (c : Chunk) : Prop :=
  match c.origin with
  | .template => piece c.text ∨ ∃ s, c.text = escapeHtml s
  | .engine => c.text ∈ engineMarkup
  | .escaped mode => ∃ s, c.text = escapeFor mode s
  | .raw => False

/-- A rendering that only outputs such parts. -/
def From (piece : Text → Prop) (r : Except TemplateError Output) : Prop :=
  ∀ out, r = .ok out → ∀ c ∈ out, c.From piece

section Find

variable {p : Dom F → Prop}

mutual

theorem every_findFragmentIn {name : Text} {found : Dom F} (d : Dom F) (h : d.Every p)
    (hf : findFragmentIn name d = some found) : found.Every p := by
  match d with
  | .element el children =>
    unfold findFragmentIn at hf
    split at hf
    next =>
      cases Option.some.inj hf
      exact h
    next => exact every_findFragment children h.ofChild hf
  | .text _ | .inline _ | .comment _ | .declaration _ => simp [findFragmentIn] at hf

theorem every_findFragment {name : Text} {found : Dom F} (nodes : List (Dom F))
    (h : ∀ d ∈ nodes, d.Every p) (hf : findFragment name nodes = some found) : found.Every p := by
  match nodes with
  | [] => simp [findFragment] at hf
  | node :: nodes =>
    rw [findFragment, Option.or_eq_some_iff] at hf
    rcases hf with hf | ⟨-, hf⟩
    · exact every_findFragmentIn node (h node (List.mem_cons_self ..)) hf
    · exact every_findFragment nodes (fun d hd => h d (List.mem_cons_of_mem node hd)) hf

end

theorem every_resolveFragment {templates : Templates F}
    (h : ∀ e ∈ templates.entries, ∀ d ∈ e.2, d.Every p) {frag : FragmentRef}
    {nodes : List (Dom F)} (hr : resolveFragment templates frag = some nodes) :
    ∀ d ∈ nodes, d.Every p := by
  have hsearch : ∀ search : List (List (Dom F)), (∀ dom ∈ search, ∀ d ∈ dom, d.Every p) →
      (if frag.name = [] then search.head?
        else (search.findSome? (findFragment frag.name)).map fun node => [node]) = some nodes →
      ∀ d ∈ nodes, d.Every p := by
    intro search hs hfound
    split at hfound
    next => exact hs nodes (List.mem_of_mem_head? hfound)
    next =>
      obtain ⟨node, hnode, rfl⟩ := Option.map_eq_some_iff.mp hfound
      obtain ⟨dom, hdom, hfind⟩ := List.exists_of_findSome?_eq_some hnode
      intro d hd
      cases List.mem_singleton.mp hd
      exact every_findFragment dom (hs dom hdom) hfind
  unfold resolveFragment at hr
  refine hsearch _ ?_ hr
  intro dom hdom
  cases htpl : frag.template with
  | none =>
    rw [htpl] at hdom
    obtain ⟨e, he, rfl⟩ := List.mem_map.mp hdom
    exact h e he
  | some tpl =>
    rw [htpl] at hdom
    have hlook : templates.lookup tpl = some dom := by simpa using hdom
    exact h ⟨tpl, dom⟩ (AList.mem_lookup_iff.mp hlook)

end Find

section Chunks

variable [StdLib F] {piece : Text → Prop}

theorem engineChunk_from {s : String} (h : s.toList ∈ engineMarkup) :
    (engineChunk s).From piece := h

theorem escapedChunk_from (env : Env F) (scope : Scope F) (mode : InlineMode) (e : Expr F) :
    (escapedChunk env scope mode e).From piece := ⟨_, rfl⟩

theorem renderAttr_from {name : Text} {value : Chunk} (hname : piece name)
    (hvalue : value.From piece) : ∀ c ∈ renderAttr name value, c.From piece := by
  intro c hc
  simp only [renderAttr, List.mem_cons, List.not_mem_nil, or_false] at hc
  rcases hc with rfl | rfl | rfl | rfl | rfl
  · exact engineChunk_from (by decide)
  · exact .inl hname
  · exact engineChunk_from (by decide)
  · exact hvalue
  · exact engineChunk_from (by decide)

theorem renderStartTag_from {env : Env F} {scope : Scope F} {el : Element F}
    {children : List (Dom F)} (h : (Dom.element el children).Written piece) :
    ∀ c ∈ renderStartTag env scope el, c.From piece := by
  obtain ⟨htag, hstatic, hdynamic⟩ := h
  intro c hc
  simp only [renderStartTag, List.cons_append, List.append_assoc, List.mem_cons, List.mem_append,
    List.mem_flatMap, List.not_mem_nil, or_false] at hc
  rcases hc with rfl | rfl | ⟨a, ha, hc⟩ | ⟨a, ha, hc⟩ | rfl
  · exact engineChunk_from (by decide)
  · exact .inl htag
  · have hvalue : Chunk.From piece ⟨.template, escapeHtml a.2⟩ := Or.inr ⟨a.2, rfl⟩
    exact renderAttr_from (hstatic a ha) hvalue c hc
  · exact renderAttr_from (hdynamic a ha) (escapedChunk_from ..) c hc
  · exact engineChunk_from (by decide)

omit [StdLib F] in
theorem renderCsrf_from (env : Env F) (el : Element F) :
    ∀ c ∈ renderCsrf env el, c.From piece := by
  intro c hc
  unfold renderCsrf at hc
  split at hc
  next token _ =>
    split at hc
    next =>
      simp only [List.mem_cons, List.not_mem_nil, or_false] at hc
      rcases hc with rfl | rfl | rfl | rfl | rfl
      · exact engineChunk_from (by decide)
      · exact engineChunk_from (s := "_csrf") (by decide)
      · exact engineChunk_from (by decide)
      · exact ⟨token, rfl⟩
      · exact engineChunk_from (by decide)
    next => simp at hc
  next => simp at hc

omit [StdLib F] in
theorem renderEndTag_from {el : Element F} (htag : piece el.tag) :
    ∀ c ∈ renderEndTag el, c.From piece := by
  intro c hc
  simp only [renderEndTag, List.mem_cons, List.not_mem_nil, or_false] at hc
  rcases hc with rfl | rfl | rfl
  · exact engineChunk_from (by decide)
  · exact .inl htag
  · exact engineChunk_from (by decide)

theorem renderInline_from {env : Env F} {scope : Scope F} {mode : InlineMode}
    {parts : List (InlinePart F)} (hw : (Dom.inline parts).Written piece)
    (he : (Dom.inline parts).Escapes) : ∀ c ∈ renderInline env scope mode parts, c.From piece := by
  intro c hc
  obtain ⟨part, hpart, rfl⟩ := List.mem_map.mp hc
  cases part with
  | lit s => exact .inl (hw s hpart)
  | escaped e => exact escapedChunk_from ..
  | raw e => exact absurd rfl (he _ hpart e)

end Chunks

section Render

variable [StdLib F] {piece : Text → Prop}

theorem from_ok {out : Output} (h : ∀ c ∈ out, c.From piece) : From piece (.ok out) := by
  intro out' heq
  cases heq
  exact h

theorem from_error (e : TemplateError) : From piece (.error e) := fun _ h => nomatch h

theorem from_bind {r : Except TemplateError Output} {next : Output → Except TemplateError Output}
    (hr : From piece r) (hnext : ∀ out, (∀ c ∈ out, c.From piece) → From piece (next out)) :
    From piece (r >>= next) := by
  cases r with
  | error e => exact from_error e
  | ok out => exact hnext out (hr out rfl)

/-- A node that the gate lets through: its texts are written in a template, and it escapes. -/
abbrev Dom.Passes (piece : Text → Prop) (d : Dom F) : Prop :=
  d.Every fun d => d.Written piece ∧ d.Escapes

/-- A level below that only outputs such parts of the nodes let through. -/
def Descend.From (piece : Text → Prop) (descend : Descend F) : Prop :=
  ∀ render, descend = some render → ∀ nodes : List (Dom F), (∀ d ∈ nodes, d.Passes piece) →
    ∀ scope mode, Kernleaf.From piece (render nodes scope mode)

variable {env : Env F} {templates : Templates F} {descend : Descend F}

omit [StdLib F] in
theorem renderFragment_from (ht : ∀ e ∈ templates.entries, ∀ d ∈ e.2, d.Passes piece)
    (hd : descend.From piece) (frag : FragmentRef) (scope : Scope F) (mode : InlineMode) :
    From piece (renderFragment templates descend frag scope mode) := by
  unfold renderFragment
  split
  next => exact from_error _
  next render =>
    split
    next nodes hr => exact hd render rfl nodes (every_resolveFragment ht hr) scope mode
    next => exact from_ok (by simp)

section Element

variable {el : Element F} {children : List (Dom F)}
  {body : Scope F → InlineMode → Except TemplateError Output}

theorem renderBody_from (ht : ∀ e ∈ templates.entries, ∀ d ∈ e.2, d.Passes piece)
    (hd : descend.From piece) (he : (Dom.element el children).Escapes)
    (hbody : ∀ scope mode, From piece (body scope mode)) (mode : InlineMode) (scope : Scope F) :
    From piece (renderBody env templates descend el body mode scope) := by
  have hutext : el.thUtext = none := he
  unfold renderBody
  split
  next frag _ => exact renderFragment_from ht hd frag scope mode
  next e _ _ => exact from_ok (by simpa using escapedChunk_from env scope .html e)
  next hsome => simp [hutext] at hsome
  next => exact hbody scope mode

theorem renderInstance_from (ht : ∀ e ∈ templates.entries, ∀ d ∈ e.2, d.Passes piece)
    (hd : descend.From piece) (hw : (Dom.element el children).Written piece)
    (he : (Dom.element el children).Escapes)
    (hbody : ∀ scope mode, From piece (body scope mode)) (mode : InlineMode) (scope : Scope F) :
    From piece (renderInstance env templates descend el body mode scope) := by
  unfold renderInstance
  split
  next =>
    split
    next frag _ => exact renderFragment_from ht hd frag scope mode
    next =>
      split
      next => exact from_ok (renderStartTag_from hw)
      next =>
        refine from_bind (renderBody_from ht hd he hbody _ scope) fun inner hinner => from_ok ?_
        intro c hc
        simp only [List.append_assoc, List.mem_append] at hc
        rcases hc with hc | hc | hc | hc
        · exact renderStartTag_from hw c hc
        · exact renderCsrf_from env el c hc
        · exact hinner c hc
        · exact renderEndTag_from hw.1 c hc
  next => exact from_ok (by simp)

theorem renderElement_from (ht : ∀ e ∈ templates.entries, ∀ d ∈ e.2, d.Passes piece)
    (hd : descend.From piece) (hw : (Dom.element el children).Written piece)
    (he : (Dom.element el children).Escapes)
    (hbody : ∀ scope mode, From piece (body scope mode)) (mode : InlineMode) (scope : Scope F) :
    From piece (renderElement env templates descend el body mode scope) := by
  unfold renderElement
  split
  next var seq _ =>
    intro out hout
    obtain ⟨outs, houts, hout⟩ := bind_eq_ok_iff.mp hout
    cases hout
    intro c hc
    obtain ⟨out, hmem, hc⟩ := List.mem_flatten.mp hc
    obtain ⟨item, -, hitem⟩ := exists_of_mem_mapM houts hmem
    exact renderInstance_from ht hd hw he hbody mode _ out hitem c hc
  next => exact renderInstance_from ht hd hw he hbody mode scope

end Element

mutual

theorem renderNode_from (ht : ∀ e ∈ templates.entries, ∀ d ∈ e.2, d.Passes piece)
    (hd : descend.From piece) (d : Dom F) (h : d.Passes piece) (scope : Scope F)
    (mode : InlineMode) : From piece (renderNode env templates descend d scope mode) := by
  obtain ⟨hw, he⟩ := h.here
  match d with
  | .text s | .declaration s =>
    refine from_ok fun c hc => ?_
    obtain rfl := List.mem_singleton.mp hc
    exact Or.inl hw
  | .comment s =>
    refine from_ok fun c hc => ?_
    simp only [List.mem_cons, List.not_mem_nil, or_false] at hc
    rcases hc with rfl | rfl | rfl
    · exact engineChunk_from (by decide)
    · exact Or.inl hw
    · exact engineChunk_from (by decide)
  | .inline parts => exact from_ok (renderInline_from hw he)
  | .element el children =>
    exact renderElement_from ht hd hw he (renderNodesWith_from ht hd children h.ofChild) mode scope

theorem renderNodesWith_from (ht : ∀ e ∈ templates.entries, ∀ d ∈ e.2, d.Passes piece)
    (hd : descend.From piece) (nodes : List (Dom F)) (h : ∀ d ∈ nodes, d.Passes piece)
    (scope : Scope F) (mode : InlineMode) :
    From piece (renderNodesWith env templates descend nodes scope mode) := by
  match nodes with
  | [] => exact from_ok (by simp)
  | node :: nodes =>
    unfold renderNodesWith
    refine from_bind (renderNode_from ht hd node (h node (List.mem_cons_self ..)) scope mode) ?_
    intro out hout
    refine from_bind (renderNodesWith_from ht hd nodes
      (fun d hd => h d (List.mem_cons_of_mem node hd)) scope mode) fun outs houts => from_ok ?_
    intro c hc
    rcases List.mem_append.mp hc with hc | hc
    · exact hout c hc
    · exact houts c hc

end

theorem renderNodes_from (ht : ∀ e ∈ templates.entries, ∀ d ∈ e.2, d.Passes piece)
    (levels : Nat) : Descend.From piece (some (renderNodes env templates levels)) := by
  induction levels with
  | zero =>
    rintro _ ⟨⟩ nodes hnodes scope mode
    have hnone : Descend.From piece (none : Descend F) := by
      intro _ h
      cases h
    exact renderNodesWith_from ht hnone nodes hnodes scope mode
  | succ levels ih =>
    rintro _ ⟨⟩ nodes hnodes scope mode
    exact renderNodesWith_from ht ih nodes hnodes scope mode

end Render

end Kernway.Kernleaf
