import Kernway.KernleafRender

namespace Kernway

namespace Kernleaf

section Tags

def isAsciiWhitespace (c : Char) : Bool :=
  c = ' ' || c = '\t' || c = '\n' || c.toNat = 12 || c = '\r'

def skipWs (s : Text) : Text := s.dropWhile isAsciiWhitespace

def isNameChar (c : Char) : Bool := !(isAsciiWhitespace c || c = '>' || c = '/' || c = '=')

/-- `read_name`: the name, and what follows. -/
def readName (s : Text) : Text × Text := (s.takeWhile isNameChar, s.dropWhile isNameChar)

def isUnquotedChar (c : Char) : Bool := !(isAsciiWhitespace c || c = '>' || c = '/')

/-- `read_attr_value`. A missing closing quote is let pass. -/
def readAttrValue (s : Text) : Text × Text :=
  match s with
  | [] => ([], [])
  | q :: rest =>
    if q = '"' ∨ q = '\'' then (rest.takeWhile (· ≠ q), (rest.dropWhile (· ≠ q)).tail)
    else (s.takeWhile isUnquotedChar, s.dropWhile isUnquotedChar)

/-- What is read next within a start tag: its end, a character that starts no name, or an
attribute. -/
inductive AttrStep
  | done (selfClosing : Bool) (rest : Text)
  | skip (rest : Text)
  | attr (name value rest : Text)

def readAttr (s : Text) : Option AttrStep :=
  match skipWs s with
  | [] => none
  | c :: rest =>
    if c = '>' then some (.done false rest)
    else if c = '/' ∧ rest.head? = some '>' then some (.done true rest.tail)
    else
      let name := readName (c :: rest)
      let after := skipWs name.2
      let value := readAttrValue (skipWs after.tail)
      if name.1 = [] then some (.skip rest)
      else if after.head? = some '=' then some (.attr name.1 value.1 value.2)
      else some (.attr name.1 [] after)

/-- What a step leaves is a shorter end of the text, and a name stands in it. -/
def AttrStep.In (s : Text) : AttrStep → Prop
  | done _ rest => rest <:+ s
  | skip rest => rest <:+ s ∧ rest.length < s.length
  | attr name _ rest => rest <:+ s ∧ rest.length < s.length ∧ name <:+: s

theorem skipWs_suffix (s : Text) : skipWs s <:+ s := List.dropWhile_suffix _

theorem readName_suffix (s : Text) : (readName s).2 <:+ s := List.dropWhile_suffix _

theorem readName_in (s : Text) : (readName s).1 <:+: s := (List.takeWhile_prefix _).isInfix

theorem readName_length (s : Text) :
    (readName s).1.length + (readName s).2.length = s.length := by
  rw [← List.length_append]
  exact congrArg List.length List.takeWhile_append_dropWhile

theorem readAttrValue_suffix (s : Text) : (readAttrValue s).2 <:+ s := by
  unfold readAttrValue
  split
  next => exact List.suffix_refl _
  next q rest =>
    split
    next =>
      exact (List.tail_suffix _).trans ((List.dropWhile_suffix _).trans (List.suffix_cons q rest))
    next => exact List.dropWhile_suffix _

theorem readAttr_in {s : Text} {step : AttrStep} (h : readAttr s = some step) : step.In s := by
  unfold readAttr at h
  split at h
  next => simp at h
  next c rest hs =>
    have hsuf : c :: rest <:+ s := hs ▸ skipWs_suffix s
    have hrest : rest <:+ s := (List.suffix_cons c rest).trans hsuf
    have hlen : rest.length < s.length := hsuf.length_le
    split at h
    next =>
      cases Option.some.inj h
      exact hrest
    next =>
      split at h
      next =>
        cases Option.some.inj h
        exact (List.tail_suffix rest).trans hrest
      next =>
        have hafter := (readName_suffix (c :: rest)).trans hsuf
        have hname := (readName_in (c :: rest)).trans hsuf.isInfix
        have hsplit := readName_length (c :: rest)
        dsimp only at h
        split at h
        next =>
          cases Option.some.inj h
          exact ⟨hrest, hlen⟩
        next hne =>
          have hpos := List.length_pos_iff.mpr hne
          have hws := skipWs_suffix (readName (c :: rest)).2
          have hwsLen := hws.length_le
          have hlen' := hsuf.length_le
          split at h
          next =>
            cases Option.some.inj h
            have hvalue : (readAttrValue (skipWs (skipWs (readName (c :: rest)).2).tail)).2 <:+
                skipWs (readName (c :: rest)).2 :=
              (readAttrValue_suffix _).trans ((skipWs_suffix _).trans (List.tail_suffix _))
            have hvalueLen := hvalue.length_le
            exact ⟨hvalue.trans (hws.trans hafter), by omega, hname⟩
          next =>
            cases Option.some.inj h
            exact ⟨hws.trans hafter, by omega, hname⟩

/-- `read_attrs`: the attributes up to `>` or `/>`, and whether it was the latter. -/
@[semireducible] def readAttrs (attrs : List (Text × Text)) (s : Text) :
    Except TemplateError (List (Text × Text) × Bool × Text) :=
  match _h : readAttr s with
  | none => .error "unterminated tag".toList
  | some (.done selfClosing rest) => .ok (attrs, selfClosing, rest)
  | some (.skip rest) => readAttrs attrs rest
  | some (.attr name value rest) => readAttrs (attrs ++ [(name, value)]) rest
termination_by s.length
decreasing_by
  · exact (readAttr_in _h).2
  · exact (readAttr_in _h).2.1

theorem readAttrs_eq (attrs : List (Text × Text)) (s : Text) :
    readAttrs attrs s = match readAttr s with
      | none => .error "unterminated tag".toList
      | some (.done selfClosing rest) => .ok (attrs, selfClosing, rest)
      | some (.skip rest) => readAttrs attrs rest
      | some (.attr name value rest) => readAttrs (attrs ++ [(name, value)]) rest := by
  rw [readAttrs]
  split <;> simp_all

theorem readAttrs_in {attrs : List (Text × Text)} {s : Text}
    {out : List (Text × Text)} {selfClosing : Bool} {rest : Text}
    (h : readAttrs attrs s = .ok (out, selfClosing, rest)) :
    rest <:+ s ∧ ∀ a ∈ out, a ∈ attrs ∨ a.1 <:+: s := by
  induction hl : s.length using Nat.strongRecOn generalizing s attrs with
  | _ l ih =>
    rw [readAttrs_eq] at h
    split at h
    next => simp at h
    next hstep =>
      obtain ⟨rfl, rfl, rfl⟩ := by simpa using h
      exact ⟨readAttr_in hstep, fun a ha => .inl ha⟩
    next rest' hstep =>
      obtain ⟨hsuf, hlt⟩ := readAttr_in hstep
      obtain ⟨hrest, hout⟩ := ih rest'.length (by omega) h rfl
      exact ⟨hrest.trans hsuf, fun a ha => (hout a ha).imp_right fun hi => hi.trans hsuf.isInfix⟩
    next name value rest' hstep =>
      obtain ⟨hsuf, hlt, hname⟩ := readAttr_in hstep
      obtain ⟨hrest, hout⟩ := ih rest'.length (by omega) h rfl
      refine ⟨hrest.trans hsuf, fun a ha => ?_⟩
      rcases hout a ha with ha | ha
      · rcases List.mem_append.mp ha with ha | ha
        · exact .inl ha
        · cases List.mem_singleton.mp ha
          exact .inr hname
      · exact .inr (ha.trans hsuf.isInfix)

end Tags

section Directives

/-- `trim_matches` of one character. -/
def trimChar (c : Char) (s : Text) : Text := (s.dropWhile (· = c)).rdropWhile (· = c)

/-- `trim_end_matches("()")`, of the text from its end. -/
def dropParens : Text → Text
  | ')' :: '(' :: s => dropParens s
  | s => s

/-- `fn_call`: the arguments where the text is a call of `name`. -/
def fnCall (s : Text) (name : String) : Option Text := do
  let rest ← name.toList.isPrefixOf? s
  match rest.dropWhile isWhitespace with
  | '(' :: inner => if inner.getLast? = some ')' then some inner.dropLast else none
  | _ => none

/-- A role or authority without the quotes around it. -/
def unquote (s : Text) : Text := trimChar '"' (trimChar '\'' (trim s))

def unquoteAll (args : Text) : List Text :=
  ((args.splitOn ',').map unquote).filter (· ≠ [])

def parseAuthorize (value : Text) : Except TemplateError AuthzExpr :=
  let v := trim value
  match String.ofList (trim (dropParens v.reverse).reverse) with
  | "permitAll" => .ok .permitAll
  | "denyAll" => .ok .denyAll
  | "isAuthenticated" => .ok .isAuthenticated
  | "isAnonymous" => .ok .isAnonymous
  | _ =>
    match fnCall v "hasRole", fnCall v "hasAnyRole", fnCall v "hasAnyAuthority",
        fnCall v "hasAuthority" with
    | some args, _, _, _ => .ok (.hasRole (unquote args))
    | _, some args, _, _ => .ok (.hasAnyRole (unquoteAll args))
    | _, _, some args, _ => .ok (.hasAnyAuthority (unquoteAll args))
    | _, _, _, some args => .ok (.hasAuthority (unquote args))
    | none, none, none, none =>
      .error ("unsupported th:authorize expression `".toList ++ value ++ "`".toList)

def fragmentName (s : Text) : Text := trim (s.takeWhile (· ≠ '('))

/-- `parse_fragment_ref`: `~{tpl :: name}`, the wrapper and either part optional. -/
def parseFragmentRef (value : Text) : FragmentRef :=
  let v := trim value
  let inner := match v with
    | '~' :: '{' :: rest => if rest.getLast? = some '}' then rest.dropLast else v
    | _ => v
  let v := trim inner
  match cutText "::".toList v with
  | some (tpl, name) =>
    ⟨if trim tpl = [] then none else some (trim tpl), fragmentName (trim name)⟩
  | none => ⟨some v, fragmentName []⟩

def parseInlineMode (value : Text) : InlineMode :=
  match String.ofList (trimChar '\'' (trim value)) with
  | "javascript" | "js" => .javaScript
  | "css" => .css
  | _ => .html

variable {F : Type} (parseExpr : Text → Except TemplateError (Expr F))

/-- `parse_each`: the first loop variable, and the sequence. -/
def parseEach (value : Text) : Except TemplateError (Text × Expr F) :=
  match cutAt ':' value with
  | none => .error ("th:each needs `var : $".toList ++ ['{'] ++ "seq".toList ++ ['}'] ++
      "`: `".toList ++ value ++ "`".toList)
  | some (var, seq) =>
    let var := trim ((trim var).takeWhile (· ≠ ','))
    if var = [] then .error ("th:each has no loop variable: `".toList ++ value ++ "`".toList)
    else do
      let e ← parseExpr (trim seq)
      .ok (var, e)

/-- An attribute put into an element: a directive by its name, others as they are. -/
def addAttr (el : Element F) (name value : Text) : Except TemplateError (Element F) :=
  if name = "xmlns:th".toList then .ok el
  else match "th:".toList.isPrefixOf? name with
    | none => .ok { el with staticAttrs := el.staticAttrs ++ [(name, value)] }
    | some directive =>
      match String.ofList directive with
      | "text" => do .ok { el with thText := some (← parseExpr value) }
      | "utext" => do .ok { el with thUtext := some (← parseExpr value) }
      | "if" => do .ok { el with thIf := some (← parseExpr value) }
      | "unless" => do .ok { el with thUnless := some (← parseExpr value) }
      | "each" => do .ok { el with thEach := some (← parseEach parseExpr value) }
      | "inline" => .ok { el with inlineMode := some (parseInlineMode value) }
      | "authorize" => do .ok { el with thAuthorize := some (← parseAuthorize value) }
      | "fragment" => .ok { el with thFragment := some (fragmentName value) }
      | "insert" => .ok { el with thInsert := some (parseFragmentRef value) }
      | "replace" => .ok { el with thReplace := some (parseFragmentRef value) }
      | _ => do
        .ok { el with dynamicAttrs := el.dynamicAttrs ++ [(directive, ← parseExpr value)] }

/-- `build_element`, without the children. -/
def buildElement (tag : Text) (void : Bool) (rawAttrs : List (Text × Text)) :
    Except TemplateError (Element F) :=
  rawAttrs.foldlM (fun el a => addAttr parseExpr el a.1 a.2) { tag, void }

/-- The next inline expression: what stands before it, whether it is escaped, and what follows
its opening. -/
def nextInline (s : Text) : Option (Text × Bool × Text) :=
  match cutText "[[".toList s, cutText "[(".toList s with
  | some (a, after), some (b, after') =>
    if a.length < b.length then some (a, true, after) else some (b, false, after')
  | some (a, after), none => some (a, true, after)
  | none, some (b, after) => some (b, false, after)
  | none, none => none

def inlineClose (isEscaped : Bool) : Text := if isEscaped then "]]".toList else ")]".toList

def unclosedInline (isEscaped : Bool) : TemplateError :=
  "unclosed inline `".toList ++ (if isEscaped then "[[".toList else "[(".toList) ++ "`".toList

theorem nextInline_eq_some {s before after : Text} {isEscaped : Bool}
    (h : nextInline s = some (before, isEscaped, after)) :
    ∃ opening, opening ≠ [] ∧ s = before ++ opening ++ after := by
  unfold nextInline at h
  split at h
  next ha hb =>
    split at h
    next =>
      cases Option.some.inj h
      exact ⟨_, by decide, cutText_eq_some ha⟩
    next =>
      cases Option.some.inj h
      exact ⟨_, by decide, cutText_eq_some hb⟩
  next ha _ =>
    cases Option.some.inj h
    exact ⟨_, by decide, cutText_eq_some ha⟩
  next hb =>
    cases Option.some.inj h
    exact ⟨_, by decide, cutText_eq_some hb⟩
  next => simp at h

@[semireducible] def compileParts (s : Text) : Except TemplateError (List (InlinePart F)) :=
  match _h : nextInline s with
  | none => .ok (if s = [] then [] else [.lit s])
  | some (before, isEscaped, after) =>
    match _h' : cutText (inlineClose isEscaped) after with
    | none => .error (unclosedInline isEscaped)
    | some (inner, rest) => do
      let e ← parseExpr (trim inner)
      let parts ← compileParts rest
      .ok ((if before = [] then [] else [.lit before]) ++
        (if isEscaped then .escaped e else .raw e) :: parts)
termination_by s.length
decreasing_by
  obtain ⟨opening, hne, rfl⟩ := nextInline_eq_some _h
  have := congrArg List.length (cutText_eq_some _h')
  have := List.length_pos_iff.mpr hne
  simp only [List.length_append] at *
  omega

def compileText (raw : Text) : Except TemplateError (Dom F) :=
  if !containsText raw "[[".toList && !containsText raw "[(".toList then .ok (.text raw)
  else (compileParts parseExpr raw).map .inline

end Directives

section Nodes

def voidTags : List Text :=
  ["area", "base", "br", "col", "embed", "hr", "img", "input", "link", "meta", "param", "source",
    "track", "wbr"].map String.toList

def rawTextTags : List Text := ["script", "style", "textarea", "title"].map String.toList

/-- A close tag of the name: it ends in `>`, in whitespace or with the text. -/
def isCloseTag (name : Text) : Text → Bool
  | '<' :: '/' :: rest =>
    eqIgnoreAsciiCase (rest.take name.length) name &&
      (rest.drop name.length).head?.all fun c => c = '>' || isAsciiWhitespace c
  | _ => false

/-- `read_raw_text`, without the inline expressions: the text up to the close tag. -/
def readRawText (name : Text) : Text → Text × Text
  | [] => ([], [])
  | c :: s =>
    if isCloseTag name (c :: s) then ([], c :: s)
    else ((c :: (readRawText name s).1), (readRawText name s).2)

/-- Past a close tag, of whatever name, if one stands there. -/
def skipCloseTag : Text → Text
  | '<' :: '/' :: rest =>
    let rest := skipWs (readName rest).2
    if rest.head? = some '>' then rest.tail else rest
  | s => s

theorem readRawText_append (name s : Text) :
    (readRawText name s).1 ++ (readRawText name s).2 = s := by
  induction s with
  | nil => rfl
  | cons c s ih =>
    unfold readRawText
    split
    next => rfl
    next => rw [List.cons_append, ih]

theorem skipCloseTag_suffix (s : Text) : skipCloseTag s <:+ s := by
  unfold skipCloseTag
  split
  next rest =>
    have hws : skipWs (readName rest).2 <:+ '<' :: '/' :: rest :=
      ((skipWs_suffix _).trans (readName_suffix rest)).trans
        ((List.suffix_cons '/' rest).trans (List.suffix_cons '<' _))
    dsimp only
    split
    next => exact (List.tail_suffix _).trans hws
    next => exact hws
  next => exact List.suffix_refl _

/-- Something read off the front of a text, and the end of the text that is left. -/
abbrev Read (α : Type) (s : Text) := {p : α × Text // p.2 <:+ s}

variable {F : Type} (parseExpr : Text → Except TemplateError (Expr F))

/-- `read_text`, from a character that opens no tag. -/
def readText (c : Char) (s : Text) : Except TemplateError (Read (Dom F) s) := do
  let node ← compileText parseExpr (c :: s.takeWhile (· ≠ '<'))
  .ok ⟨(node, s.dropWhile (· ≠ '<')), List.dropWhile_suffix _⟩

/-- `read_comment`, from after its `<!--`. -/
def readComment (s : Text) : Except TemplateError (Read (Dom F) s) :=
  match h : cutText "-->".toList s with
  | none => .error "unterminated comment".toList
  | some (body, rest) => .ok ⟨(.comment body, rest), ⟨_, (cutText_eq_some h).symm⟩⟩

/-- `read_declaration`, from after its `<`. -/
def readDeclaration (s : Text) : Except TemplateError (Read (Dom F) s) :=
  match h : cutAt '>' s with
  | none => .error "unterminated `<!…>`".toList
  | some (body, rest) =>
    .ok ⟨(.declaration ('<' :: body ++ ['>']), rest), ⟨body ++ ['>'], by
      rw [(cutAt_eq_some_iff.mp h).1, List.append_assoc, List.singleton_append]⟩⟩

/-- The one node of a raw-text element: tags in it are text. -/
def readRawChildren (name s : Text) : Except TemplateError (Read (List (Dom F)) s) := do
  let node ← compileText parseExpr (readRawText name s).1
  .ok ⟨([node], (readRawText name s).2), ⟨_, readRawText_append name s⟩⟩

mutual

/-- `parse_nodes`: siblings up to a close tag or the end. -/
def parseNodes (s : Text) : Except TemplateError (Read (List (Dom F)) s) :=
  match s with
  | [] => .ok ⟨([], []), List.suffix_refl _⟩
  | c :: rest =>
    if c = '<' ∧ rest.head? = some '/' then .ok ⟨([], c :: rest), List.suffix_refl _⟩
    else do
      let ⟨(node, rest₁), h₁⟩ ← readNode c rest
      let ⟨(nodes, rest₂), h₂⟩ ← parseNodes rest₁
      .ok ⟨(node :: nodes, rest₂), h₂.trans (h₁.trans (List.suffix_cons c rest))⟩
termination_by 3 * s.length
decreasing_by
  · simp only [List.length_cons]
    omega
  · have := h₁.length_le
    simp only [List.length_cons] at *
    omega

def readNode (c : Char) (s : Text) : Except TemplateError (Read (Dom F) s) :=
  if c ≠ '<' then readText parseExpr c s
  else if "!--".toList.isPrefixOf s then
    (readComment (s.drop 3)).map fun r => ⟨r.1, r.2.trans (List.drop_suffix 3 s)⟩
  else if s.head? = some '!' then readDeclaration s
  else readElement s
termination_by 3 * s.length + 2

/-- `read_element`, from after its `<`. -/
def readElement (s : Text) : Except TemplateError (Read (Dom F) s) :=
  let name := readName s
  if name.1 = [] then .error "`<` without a tag name".toList
  else
    match h : readAttrs [] name.2 with
    | .error e => .error e
    | .ok (rawAttrs, selfClosing, rest) => do
      have hrest : rest <:+ s := (readAttrs_in h).1.trans (readName_suffix s)
      let tagLower := toAsciiLowercase name.1
      let void := selfClosing || voidTags.contains tagLower
      let content : Except TemplateError (Read (List (Dom F)) rest) :=
        if void then .ok ⟨([], rest), List.suffix_refl _⟩
        else if rawTextTags.contains tagLower then readRawChildren parseExpr tagLower rest
        else parseNodes rest
      let ⟨(children, rest₁), h₁⟩ ← content
      let el ← buildElement parseExpr name.1 void rawAttrs
      let rest₂ := if void then rest₁ else skipCloseTag rest₁
      have h₂ : rest₂ <:+ rest₁ := by
        by_cases hv : void
        · simp [rest₂, hv]
        · simpa [rest₂, hv] using skipCloseTag_suffix rest₁
      .ok ⟨(.element el children, rest₂), h₂.trans (h₁.trans hrest)⟩
termination_by 3 * s.length + 1
decreasing_by
  have := hrest.length_le
  omega

end

end Nodes

section Engine

variable {F : Type}

def message (engine : Kernleaf F) (key value : Text) : Kernleaf F :=
  { engine with messages := engine.messages.insert key value }

/-- `Kernleaf::add`, which replaces the template of that name. -/
def add (parseExpr : Text → Except TemplateError (Expr F)) (engine : Kernleaf F)
    (name source : Text) : Except TemplateError (Kernleaf F) := do
  let dom ← parseNodes parseExpr source
  .ok { engine with templates := engine.templates.insert name dom.1.1 }

end Engine

end Kernleaf

end Kernway
