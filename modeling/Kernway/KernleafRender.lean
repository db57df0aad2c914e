import Kernway.KernleafEscape

namespace Kernway

abbrev TemplateError := Text

namespace Kernleaf

inductive InlinePart (F : Type)
  | lit (s : Text)
  | escaped (e : Expr F)
  | raw (e : Expr F)

inductive AuthzExpr
  | permitAll
  | denyAll
  | isAuthenticated
  | isAnonymous
  | hasRole (role : Text)
  | hasAnyRole (roles : List Text)
  | hasAuthority (authority : Text)
  | hasAnyAuthority (authorities : List Text)

def AuthzExpr.allows (authz : Authorization) : AuthzExpr → Bool
  | permitAll => true
  | denyAll => false
  | isAuthenticated => authz.isAuthenticated
  | isAnonymous => !authz.isAuthenticated
  | hasRole role => authz.hasRole role
  | hasAnyRole roles => roles.any authz.hasRole
  | hasAuthority authority => authz.hasAuthority authority
  | hasAnyAuthority authorities => authorities.any authz.hasAuthority

structure FragmentRef where
  template : Option Text
  name : Text
  deriving DecidableEq

/-- A start tag with its `th:` directives taken out of the attributes. -/
structure Element (F : Type) where
  tag : Text
  void : Bool
  staticAttrs : List (Text × Text) := []
  dynamicAttrs : List (Text × Expr F) := []
  thIf : Option (Expr F) := none
  thUnless : Option (Expr F) := none
  thEach : Option (Text × Expr F) := none
  thText : Option (Expr F) := none
  thUtext : Option (Expr F) := none
  inlineMode : Option InlineMode := none
  thAuthorize : Option AuthzExpr := none
  thFragment : Option Text := none
  thInsert : Option FragmentRef := none
  thReplace : Option FragmentRef := none

inductive Dom (F : Type)
  | text (s : Text)
  | inline (parts : List (InlinePart F))
  | comment (s : Text)
  | declaration (s : Text)
  | element (el : Element F) (children : List (Dom F))

def Dom.children {F : Type} : Dom F → List (Dom F)
  | element _ children => children
  | _ => []

abbrev Templates (F : Type) := Table Text (List (Dom F))

/-- Where a part of the output comes from: the text of a template, markup that the engine writes,
or a value, escaped or raw. -/
inductive Origin
  | template
  | engine
  | escaped (mode : InlineMode)
  | raw
  deriving DecidableEq

structure Chunk where
  origin : Origin
  text : Text
  deriving DecidableEq

/-- The output, as it is appended to piece by piece. -/
abbrev Output := List Chunk

def Output.text (out : Output) : Text := out.flatMap Chunk.text

def maxFragmentDepth : Nat := 32

def csrfField : Text := "_csrf".toList

section Fragments

variable {F : Type}

mutual

/-- The element that is the fragment `name`, depth first. -/
def findFragmentIn (name : Text) : Dom F → Option (Dom F)
  | .element el children =>
    if el.thFragment = some name then some (.element el children)
    else findFragment name children
  | _ => none

def findFragment (name : Text) : List (Dom F) → Option (Dom F)
  | [] => none
  | node :: nodes => (findFragmentIn name node).or (findFragment name nodes)

end

/-- `resolve_fragment`, over the templates in the order of the hash map. -/
def resolveFragment (templates : Templates F) (frag : FragmentRef) : Option (List (Dom F)) :=
  let search := match frag.template with
    | some tpl => (templates.lookup tpl).toList
    | none => templates.entries.map Sigma.snd
  if frag.name = [] then search.head?
  else (search.findSome? (findFragment frag.name)).map fun node => [node]

def isStateChangingForm (el : Element F) : Bool :=
  match el.staticAttrs.find? fun p => eqIgnoreAsciiCase p.1 "method".toList with
  | some (_, v) => !eqIgnoreAsciiCase v "get".toList
  | none => false

end Fragments

section Render

variable {F : Type} [StdLib F] (env : Env F)

def escapedChunk (scope : Scope F) (mode : InlineMode) (e : Expr F) : Chunk :=
  ⟨.escaped mode, escapeFor mode (eval env scope e).text⟩

def engineChunk (s : String) : Chunk := ⟨.engine, s.toList⟩

def renderInline (scope : Scope F) (mode : InlineMode) (parts : List (InlinePart F)) : Output :=
  parts.map fun
    | .lit s => ⟨.template, s⟩
    | .raw e => ⟨.raw, (eval env scope e).text⟩
    | .escaped e => escapedChunk env scope mode e

/-- One attribute, its value escaped already. -/
def renderAttr (name : Text) (value : Chunk) : Output :=
  [engineChunk " ", ⟨.template, name⟩, engineChunk "=\"", value, engineChunk "\""]

def renderStartTag (scope : Scope F) (el : Element F) : Output :=
  engineChunk "<" :: ⟨.template, el.tag⟩ ::
    (el.staticAttrs.flatMap fun p => renderAttr p.1 ⟨.template, escapeHtml p.2⟩) ++
    (el.dynamicAttrs.flatMap fun p => renderAttr p.1 (escapedChunk env scope .html p.2)) ++
    [engineChunk ">"]

/-- The hidden field that a form with a state-changing method gets. -/
def renderCsrf (el : Element F) : Output :=
  match env.csrf with
  | some token =>
    if eqIgnoreAsciiCase el.tag "form".toList && isStateChangingForm el then
      [engineChunk "<input type=\"hidden\" name=\"", ⟨.engine, csrfField⟩, engineChunk "\" value=\"",
        ⟨.escaped .html, escapeHtml token⟩, engineChunk "\">"]
    else []
  | none => []

def renderEndTag (el : Element F) : Output :=
  [engineChunk "</", ⟨.template, el.tag⟩, engineChunk ">"]

/-- Whether `th:authorize`, `th:if` and `th:unless` let an element be rendered. -/
def isShown (scope : Scope F) (el : Element F) : Bool :=
  el.thAuthorize.all (AuthzExpr.allows env.authz) &&
    el.thIf.all (fun cond => (eval env scope cond).toBool) &&
    el.thUnless.all fun cond => !(eval env scope cond).toBool

/-- The rendering of a fragment's nodes one level down, `none` at the deepest level. -/
abbrev Descend (F : Type) :=
  Option (List (Dom F) → Scope F → InlineMode → Except TemplateError Output)

def tooDeep : TemplateError := "fragment nesting too deep — a fragment cycle?".toList

/-- The nodes of the fragment referred to, where there is one. -/
def renderFragment (templates : Templates F) (descend : Descend F) (frag : FragmentRef)
    (scope : Scope F) (mode : InlineMode) : Except TemplateError Output :=
  match descend with
  | none => .error tooDeep
  | some render => match resolveFragment templates frag with
    | some nodes => render nodes scope mode
    | none => .ok []

/-- What stands between an element's tags: the fragment inserted, its text, or its children, which
`body` renders. -/
def renderBody (templates : Templates F) (descend : Descend F) (el : Element F)
    (body : Scope F → InlineMode → Except TemplateError Output) (mode : InlineMode)
    (scope : Scope F) : Except TemplateError Output :=
  match el.thInsert, el.thText, el.thUtext with
  | some frag, _, _ => renderFragment templates descend frag scope mode
  | none, some e, _ => .ok [escapedChunk env scope .html e]
  | none, none, some e => .ok [⟨.raw, (eval env scope e).text⟩]
  | none, none, none => body scope mode

def renderInstance (templates : Templates F) (descend : Descend F) (el : Element F)
    (body : Scope F → InlineMode → Except TemplateError Output) (mode : InlineMode)
    (scope : Scope F) : Except TemplateError Output :=
  if isShown env scope el then
    match el.thReplace with
    | some frag => renderFragment templates descend frag scope mode
    | none =>
      if el.void then .ok (renderStartTag env scope el)
      else do
        let inner ← renderBody env templates descend el body (el.inlineMode.getD mode) scope
        .ok (renderStartTag env scope el ++ renderCsrf env el ++ inner ++ renderEndTag el)
  else .ok []

/-- `render_element`: once, or for every item of `th:each`; what is no sequence has no items. -/
def renderElement (templates : Templates F) (descend : Descend F) (el : Element F)
    (body : Scope F → InlineMode → Except TemplateError Output) (mode : InlineMode)
    (scope : Scope F) : Except TemplateError Output :=
  match el.thEach with
  | some (var, seq) => do
    let items := ((eval env scope seq).asSeq).getD []
    let outs ← items.mapM fun item =>
      renderInstance env templates descend el body mode ((var, item) :: scope)
    .ok outs.flatten
  | none => renderInstance env templates descend el body mode scope

mutual

/-- A node, at the level whose fragments `descend` renders. -/
def renderNode (templates : Templates F) (descend : Descend F) :
    Dom F → Scope F → InlineMode → Except TemplateError Output
  | .text s, _, _ => .ok [⟨.template, s⟩]
  | .inline parts, scope, mode => .ok (renderInline env scope mode parts)
  | .comment s, _, _ => .ok [engineChunk "<!--", ⟨.template, s⟩, engineChunk "-->"]
  | .declaration s, _, _ => .ok [⟨.template, s⟩]
  | .element el children, scope, mode =>
    renderElement env templates descend el (renderNodesWith templates descend children) mode scope

def renderNodesWith (templates : Templates F) (descend : Descend F) :
    List (Dom F) → Scope F → InlineMode → Except TemplateError Output
  | [], _, _ => .ok []
  | node :: nodes, scope, mode => do
    let out ← renderNode templates descend node scope mode
    let outs ← renderNodesWith templates descend nodes scope mode
    .ok (out ++ outs)

end

/-- `render_nodes`, with `levels` more levels of fragments allowed. -/
def renderNodes (templates : Templates F) :
    Nat → List (Dom F) → Scope F → InlineMode → Except TemplateError Output
  | 0 => renderNodesWith env templates none
  | levels + 1 => renderNodesWith env templates (some (renderNodes templates levels))

end Render

end Kernleaf

/-- The template engine: every template's nodes by name, and the messages. -/
structure Kernleaf (F : Type) where
  templates : Kernleaf.Templates F := ∅
  messages : Table Text Text := ∅

namespace Kernleaf

structure RenderContext where
  authz : Option Authorization := none
  csrf : Option Text := none

variable {F : Type} [StdLib F]

/-- `render_with`, in the pieces it appends. -/
def renderChunks (engine : Kernleaf F) (template : Text) (model : Value F) (ctx : RenderContext) :
    Except TemplateError Output :=
  match engine.templates.lookup template with
  | some dom =>
    renderNodes ⟨model, engine.messages, [], ctx.authz.getD anonymous, ctx.csrf⟩ engine.templates
      maxFragmentDepth dom [] .html
  | none => .error ("no template named `".toList ++ template ++ "`".toList)

def renderWith (engine : Kernleaf F) (template : Text) (model : Value F) (ctx : RenderContext) :
    Except TemplateError Text :=
  (engine.renderChunks template model ctx).map Output.text

end Kernleaf

end Kernway
