import Kernway.KernleafCsrf

namespace Kernway.Kernleaf

section Resolution

variable {F : Type}

/-- The fragment of a template's nodes, or all of them where the name is empty. -/
def fragmentIn (name : Text) (nodes : List (Dom F)) : Option (List (Dom F)) :=
  if name = [] then some nodes else (findFragment name nodes).map fun node => [node]

/-- What a reference written in a template with these nodes is to mean. -/
def meantBy (templates : Templates F) (nodes : List (Dom F)) (frag : FragmentRef) :
    Option (List (Dom F)) :=
  match frag.template with
  | some tpl => (templates.lookup tpl).bind (fragmentIn frag.name)
  | none => fragmentIn frag.name nodes

def Dom.Refers (frag : FragmentRef) : Dom F → Prop
  | element el _ => el.thInsert = some frag ∨ el.thReplace = some frag
  | _ => False

/-- Something holds of every reference in these nodes. -/
def References (p : FragmentRef → Prop) (nodes : List (Dom F)) : Prop :=
  ∀ d ∈ nodes, d.Every fun d => ∀ frag, d.Refers frag → p frag

/-- No other template has a fragment that a reference without a template means, or one that is just
the same. -/
def Unshadowed (templates : Templates F) (nodes : List (Dom F)) (frag : FragmentRef) : Prop :=
  frag.template = none → ∀ other ∈ templates.entries,
    fragmentIn frag.name other.2 = none ∨
      fragmentIn frag.name other.2 = fragmentIn frag.name nodes

theorem References.mono {p q : FragmentRef → Prop} (h : ∀ frag, p frag → q frag)
    {nodes : List (Dom F)} (hp : References p nodes) : References q nodes :=
  fun d hd => (hp d hd).mono fun _ hr frag href => h frag (hr frag href)

theorem findSome?_fragmentIn (name : Text) (search : List (List (Dom F))) :
    (if name = [] then search.head?
      else (search.findSome? (findFragment name)).map fun node => [node]) =
      search.findSome? (fragmentIn name) := by
  unfold fragmentIn
  split
  next => cases search <;> rfl
  next =>
    induction search with
    | nil => rfl
    | cons nodes search ih =>
      rw [List.findSome?_cons, List.findSome?_cons]
      cases findFragment name nodes with
      | none => exact ih
      | some node => rfl

theorem resolveFragment_of_none (templates : Templates F) {frag : FragmentRef}
    (h : frag.template = none) :
    resolveFragment templates frag =
      (templates.entries.map Sigma.snd).findSome? (fragmentIn frag.name) := by
  rw [← findSome?_fragmentIn]
  unfold resolveFragment
  rw [h]

/-- A reference to a template resolves in that template only. -/
theorem resolveFragment_of_template (templates : Templates F) (nodes : List (Dom F))
    {frag : FragmentRef} {tpl : Text} (h : frag.template = some tpl) :
    resolveFragment templates frag = meantBy templates nodes frag := by
  have hsearch : resolveFragment templates frag =
      (templates.lookup tpl).toList.findSome? (fragmentIn frag.name) := by
    rw [← findSome?_fragmentIn]
    unfold resolveFragment
    rw [h]
  rw [hsearch, meantBy, h]
  dsimp only
  cases templates.lookup tpl with
  | none => rfl
  | some dom =>
    rw [Option.toList_some, List.findSome?_cons, Option.bind_some]
    cases fragmentIn frag.name dom <;> rfl

theorem findSome?_eq_of_none_or {α β : Type} {f : α → Option β} {x : Option β} {xs : List α}
    (h : ∀ a ∈ xs, f a = none ∨ f a = x) (hmem : ∃ a ∈ xs, f a = x) : xs.findSome? f = x := by
  induction xs with
  | nil => simp at hmem
  | cons a xs ih =>
    rw [List.findSome?_cons]
    cases ha : f a with
    | some b =>
      have hx := (h a List.mem_cons_self).resolve_left (by simp [ha])
      rw [← hx, ha]
    | none =>
      obtain ⟨a', ha', hx⟩ := hmem
      rcases List.mem_cons.mp ha' with rfl | ha'
      · cases x with
        | some b =>
          rw [ha] at hx
          cases hx
        | none =>
          refine List.findSome?_eq_none_iff.mpr fun y hy => ?_
          exact (h y (List.mem_cons_of_mem _ hy)).elim id id
      · exact ih (fun y hy => h y (List.mem_cons_of_mem _ hy)) ⟨a', ha', hx⟩

/-- In every order of the map a reference resolves as it is meant, exactly if it is unshadowed. -/
theorem resolves_iff {templates : Templates F} {name : Text} {nodes : List (Dom F)}
    (hnodes : templates.lookup name = some nodes) (frag : FragmentRef) :
    (∀ order : Templates F, order.entries.Perm templates.entries →
      resolveFragment order frag = meantBy templates nodes frag) ↔
      Unshadowed templates nodes frag := by
  cases htpl : frag.template with
  | some tpl =>
    refine iff_of_true (fun order hp => ?_) fun hnone => ?_
    · have hlookup : order.lookup tpl = templates.lookup tpl := AList.perm_lookup hp
      rw [resolveFragment_of_template order nodes htpl, meantBy, meantBy, htpl]
      dsimp only
      rw [hlookup]
    · rw [htpl] at hnone
      cases hnone
  | none =>
    have hmem : (⟨name, nodes⟩ : Sigma fun _ : Text => List (Dom F)) ∈ templates.entries :=
      AList.mem_lookup_iff.mp hnodes
    constructor
    · intro h _ other hother
      obtain ⟨before, after, hentries⟩ := List.append_of_mem hother
      have hperm : (other :: (before ++ after)).Perm templates.entries := by
        rw [hentries]
        exact List.perm_middle.symm
      have hkeys : (other :: (before ++ after)).NodupKeys :=
        (List.perm_nodupKeys hperm).mpr templates.nodupKeys
      -- the order in which the other template comes first
      have hfirst := h ⟨other :: (before ++ after), hkeys⟩ hperm
      rw [resolveFragment_of_none _ htpl, meantBy, htpl] at hfirst
      rw [List.map_cons, List.findSome?_cons] at hfirst
      cases hfound : fragmentIn frag.name other.2 with
      | none => exact .inl rfl
      | some found =>
        rw [hfound] at hfirst
        exact .inr hfirst
    · intro h order hp
      rw [resolveFragment_of_none _ htpl, meantBy, htpl, List.findSome?_map]
      refine findSome?_eq_of_none_or (fun e he => h htpl e (hp.mem_iff.mp he)) ?_
      exact ⟨_, hp.mem_iff.mpr hmem, rfl⟩

/-- The reference with the template it is written in, unless it names one. -/
def FragmentRef.within (tpl : Text) (frag : FragmentRef) : FragmentRef :=
  ⟨some (frag.template.getD tpl), frag.name⟩

def Element.link (tpl : Text) (el : Element F) : Element F :=
  { el with
    thInsert := el.thInsert.map (FragmentRef.within tpl)
    thReplace := el.thReplace.map (FragmentRef.within tpl) }

mutual

/-- A node in which every reference names its template. -/
def linkNode (tpl : Text) : Dom F → Dom F
  | .element el children => .element (el.link tpl) (linkNodes tpl children)
  | .text s => .text s
  | .inline parts => .inline parts
  | .comment s => .comment s
  | .declaration s => .declaration s

def linkNodes (tpl : Text) : List (Dom F) → List (Dom F)
  | [] => []
  | node :: nodes => linkNode tpl node :: linkNodes tpl nodes

end

def linkTemplates (templates : Templates F) : Templates F := templates.mapWithKey linkNodes

mutual

theorem findFragmentIn_link (tpl name : Text) (d : Dom F) :
    findFragmentIn name (linkNode tpl d) = (findFragmentIn name d).map (linkNode tpl) := by
  match d with
  | .text _ | .inline _ | .comment _ | .declaration _ => rfl
  | .element el children =>
    unfold linkNode findFragmentIn
    have hfragment : (el.link tpl).thFragment = el.thFragment := rfl
    rw [hfragment]
    split
    next => rw [Option.map_some, linkNode]
    next => exact findFragment_link tpl name children

theorem findFragment_link (tpl name : Text) (nodes : List (Dom F)) :
    findFragment name (linkNodes tpl nodes) = (findFragment name nodes).map (linkNode tpl) := by
  match nodes with
  | [] => rfl
  | node :: nodes =>
    unfold linkNodes findFragment
    rw [findFragmentIn_link, findFragment_link, Option.map_or]

end

theorem fragmentIn_link (tpl name : Text) (nodes : List (Dom F)) :
    fragmentIn name (linkNodes tpl nodes) = (fragmentIn name nodes).map (linkNodes tpl) := by
  unfold fragmentIn
  split
  next => rfl
  next =>
    rw [findFragment_link, Option.map_map, Option.map_map]
    rfl

/-- What a linked reference resolves to are the linked nodes of what the reference means. -/
theorem resolve_linked {templates : Templates F} {tpl : Text} {nodes : List (Dom F)}
    (hnodes : templates.lookup tpl = some nodes) (frag : FragmentRef) :
    resolveFragment (linkTemplates templates) (frag.within tpl) =
      (meantBy templates nodes frag).map (linkNodes (frag.template.getD tpl)) := by
  rw [resolveFragment_of_template (linkTemplates templates) [] rfl, meantBy]
  unfold FragmentRef.within
  dsimp only
  rw [linkTemplates, Table.lookup_mapWithKey]
  unfold meantBy
  cases frag.template with
  | none =>
    dsimp only [Option.getD_none]
    rw [hnodes, Option.map_some, Option.bind_some, fragmentIn_link]
  | some t =>
    dsimp only [Option.getD_some]
    cases templates.lookup t with
    | none => rfl
    | some dom => rw [Option.map_some, Option.bind_some, Option.bind_some, fragmentIn_link]

/-- The nodes that a reference means stand in the template it names, or is written in. -/
theorem meantBy_owner {templates : Templates F} {tpl : Text} {nodes found : List (Dom F)}
    {p : Text → FragmentRef → Prop}
    (hp : ∀ t dom, templates.lookup t = some dom → References (p t) dom)
    (hnodes : templates.lookup tpl = some nodes) {frag : FragmentRef}
    (h : meantBy templates nodes frag = some found) :
    ∃ dom, templates.lookup (frag.template.getD tpl) = some dom ∧
      References (p (frag.template.getD tpl)) found := by
  have hfragment : ∀ t dom, templates.lookup t = some dom →
      fragmentIn frag.name dom = some found → References (p t) found := by
    intro t dom hdom hfound
    have hdomp := hp t dom hdom
    unfold fragmentIn at hfound
    split at hfound
    next =>
      cases hfound
      exact hdomp
    next =>
      obtain ⟨node, hnode, rfl⟩ := Option.map_eq_some_iff.mp hfound
      intro d hd
      cases List.mem_singleton.mp hd
      exact every_findFragment dom hdomp hnode
  unfold meantBy at h
  cases htpl : frag.template with
  | none =>
    rw [htpl] at h
    exact ⟨nodes, hnodes, hfragment tpl nodes hnodes h⟩
  | some t =>
    rw [htpl] at h
    obtain ⟨dom, hdom, hfound⟩ := Option.bind_eq_some_iff.mp h
    exact ⟨dom, hdom, hfragment t dom hdom hfound⟩

end Resolution

section Order

variable {F : Type} [StdLib F] {env : Env F} {templates order : Templates F}

/-- The level below renders the nodes of a template as it renders the linked ones. -/
def Agrees (templates : Templates F) (p : Text → FragmentRef → Prop)
    (below below' : Descend F) : Prop :=
  match below, below' with
  | none, none => True
  | some render, some render' => ∀ t dom nodes scope mode, templates.lookup t = some dom →
    References (p t) nodes → render nodes scope mode = render' (linkNodes t nodes) scope mode
  | _, _ => False

/-- A reference resolves as it is meant in the template. -/
def Settled (templates order : Templates F) (tpl : Text) (frag : FragmentRef) : Prop :=
  ∀ nodes, templates.lookup tpl = some nodes →
    resolveFragment order frag = meantBy templates nodes frag

variable {below below' : Descend F} {tpl : Text} {dom : List (Dom F)}

omit [StdLib F] in
theorem renderFragment_link (hdom : templates.lookup tpl = some dom)
    (hall : ∀ t dom, templates.lookup t = some dom → References (Settled templates order t) dom)
    (hbelow : Agrees templates (Settled templates order) below below') {frag : FragmentRef}
    (hfrag : Settled templates order tpl frag) (scope : Scope F) (mode : InlineMode) :
    renderFragment order below frag scope mode =
      renderFragment (linkTemplates templates) below' (frag.within tpl) scope mode := by
  unfold renderFragment
  match below, below', hbelow with
  | none, none, _ => rfl
  | some render, some render', hbelow =>
    dsimp only
    rw [hfrag dom hdom, resolve_linked hdom]
    cases hmeant : meantBy templates dom frag with
    | none => rfl
    | some found =>
      obtain ⟨owner, howner, hfound⟩ := meantBy_owner hall hdom hmeant
      exact hbelow _ owner found scope mode howner hfound

theorem renderInstance_link (hdom : templates.lookup tpl = some dom)
    (hall : ∀ t dom, templates.lookup t = some dom → References (Settled templates order t) dom)
    (hbelow : Agrees templates (Settled templates order) below below') {el : Element F}
    {children : List (Dom F)}
    (hel : ∀ frag, (Dom.element el children).Refers frag → Settled templates order tpl frag)
    {body body' : Scope F → InlineMode → Except TemplateError Output}
    (hbody : ∀ scope mode, body scope mode = body' scope mode) (mode : InlineMode)
    (scope : Scope F) :
    renderInstance env order below el body mode scope =
      renderInstance env (linkTemplates templates) below' (el.link tpl) body' mode scope := by
  have hlinked : (el.link tpl).thInsert = el.thInsert.map (FragmentRef.within tpl) := rfl
  have hreplaced : (el.link tpl).thReplace = el.thReplace.map (FragmentRef.within tpl) := rfl
  have htext : (el.link tpl).thText = el.thText := rfl
  have hutext : (el.link tpl).thUtext = el.thUtext := rfl
  have hinsert : renderBody env order below el body (el.inlineMode.getD mode) scope =
      renderBody env (linkTemplates templates) below' (el.link tpl) body'
        (el.inlineMode.getD mode) scope := by
    unfold renderBody
    rw [hlinked, htext, hutext]
    cases hi : el.thInsert with
    | some frag => exact renderFragment_link hdom hall hbelow (hel frag (.inl hi)) scope _
    | none =>
      cases el.thText with
      | some e => rfl
      | none =>
        cases el.thUtext with
        | some e => rfl
        | none => exact hbody scope _
  have hshown : isShown env scope (el.link tpl) = isShown env scope el := rfl
  unfold renderInstance
  rw [hshown]
  split
  next =>
    rw [hreplaced]
    cases hr : el.thReplace with
    | some frag => exact renderFragment_link hdom hall hbelow (hel frag (.inr hr)) scope _
    | none =>
      dsimp only [Option.map_none]
      rw [hinsert]
      rfl
  next => rfl

theorem renderElement_link (hdom : templates.lookup tpl = some dom)
    (hall : ∀ t dom, templates.lookup t = some dom → References (Settled templates order t) dom)
    (hbelow : Agrees templates (Settled templates order) below below') {el : Element F}
    {children : List (Dom F)}
    (hel : ∀ frag, (Dom.element el children).Refers frag → Settled templates order tpl frag)
    {body body' : Scope F → InlineMode → Except TemplateError Output}
    (hbody : ∀ scope mode, body scope mode = body' scope mode) (mode : InlineMode)
    (scope : Scope F) :
    renderElement env order below el body mode scope =
      renderElement env (linkTemplates templates) below' (el.link tpl) body' mode scope := by
  have hinstance : ∀ scope, renderInstance env order below el body mode scope =
      renderInstance env (linkTemplates templates) below' (el.link tpl) body' mode scope :=
    renderInstance_link hdom hall hbelow hel hbody mode
  have heach : (el.link tpl).thEach = el.thEach := rfl
  unfold renderElement
  rw [heach]
  split
  next => simp only [hinstance]
  next => exact hinstance scope

mutual

theorem renderNode_link (hdom : templates.lookup tpl = some dom)
    (hall : ∀ t dom, templates.lookup t = some dom → References (Settled templates order t) dom)
    (hbelow : Agrees templates (Settled templates order) below below') (d : Dom F)
    (hd : d.Every fun d => ∀ frag, d.Refers frag → Settled templates order tpl frag)
    (scope : Scope F) (mode : InlineMode) :
    renderNode env order below d scope mode =
      renderNode env (linkTemplates templates) below' (linkNode tpl d) scope mode := by
  match d with
  | .text _ | .inline _ | .comment _ | .declaration _ => rfl
  | .element el children =>
    unfold renderNode linkNode
    exact renderElement_link hdom hall hbelow hd.here
      (renderNodesWith_link hdom hall hbelow children hd.ofChild) mode scope

theorem renderNodesWith_link (hdom : templates.lookup tpl = some dom)
    (hall : ∀ t dom, templates.lookup t = some dom → References (Settled templates order t) dom)
    (hbelow : Agrees templates (Settled templates order) below below') (nodes : List (Dom F))
    (hnodes : References (Settled templates order tpl) nodes) (scope : Scope F)
    (mode : InlineMode) :
    renderNodesWith env order below nodes scope mode =
      renderNodesWith env (linkTemplates templates) below' (linkNodes tpl nodes) scope mode := by
  match nodes with
  | [] => rfl
  | node :: nodes =>
    unfold renderNodesWith linkNodes
    rw [renderNode_link hdom hall hbelow node (hnodes node List.mem_cons_self),
      renderNodesWith_link hdom hall hbelow nodes fun d hd =>
        hnodes d (List.mem_cons_of_mem node hd)]

end

theorem renderNodes_link
    (hall : ∀ t dom, templates.lookup t = some dom → References (Settled templates order t) dom)
    (levels : Nat) :
    Agrees templates (Settled templates order) (some (renderNodes env order levels))
      (some (renderNodes env (linkTemplates templates) levels)) := by
  induction levels with
  | zero =>
    intro t dom nodes scope mode hdom hnodes
    have hnone : Agrees templates (Settled templates order) (none : Descend F) none := trivial
    exact renderNodesWith_link hdom hall hnone nodes hnodes scope mode
  | succ levels ih =>
    intro t dom nodes scope mode hdom hnodes
    exact renderNodesWith_link hdom hall ih nodes hnodes scope mode

end Order

section Nesting

variable {F : Type} [StdLib F]

/-- The references that rendering comes to, and the loop variables there. -/
inductive Reaches (env : Env F) : List (Dom F) → Scope F → FragmentRef → Scope F → Prop
  | here {nodes children : List (Dom F)} {scope scope' : Scope F} {el : Element F}
      {frag : FragmentRef} : Opened env nodes scope el children scope' → el.ShowsFragment frag →
    Reaches env nodes scope frag scope'
  | child {nodes children : List (Dom F)} {scope scope' scope'' : Scope F} {el : Element F}
      {frag : FragmentRef} : Opened env nodes scope el children scope' → el.ShowsChildren →
    Reaches env children scope' frag scope'' → Reaches env nodes scope frag scope''

/-- Rendering enters so many fragments one within the other, and comes to a reference in the last. -/
inductive Nests (env : Env F) (templates : Templates F) : Nat → List (Dom F) → Scope F → Prop
  | reached {nodes : List (Dom F)} {scope scope' : Scope F} {frag : FragmentRef} :
    Reaches env nodes scope frag scope' → Nests env templates 0 nodes scope
  | entered {levels : Nat} {nodes nodes' : List (Dom F)} {scope scope' : Scope F}
      {frag : FragmentRef} : Reaches env nodes scope frag scope' →
    resolveFragment templates frag = some nodes' → Nests env templates levels nodes' scope' →
    Nests env templates (levels + 1) nodes scope

/-- A rendering fails, with the nesting error, exactly if something holds. -/
def FailsIff (p : Prop) : Except TemplateError Output → Prop
  | .ok _ => ¬ p
  | .error e => e = tooDeep ∧ p

variable {env : Env F} {templates : Templates F} {p q : Prop}

omit [StdLib F] in
theorem FailsIff.congr {r : Except TemplateError Output} (h : FailsIff p r) (hpq : p ↔ q) :
    FailsIff q r := by
  rwa [← propext hpq]

theorem FailsIff.bind {r : Except TemplateError Output}
    {f : Output → Except TemplateError Output} (hr : FailsIff p r)
    (hf : ∀ out, FailsIff q (f out)) : FailsIff (p ∨ q) (r >>= f) := by
  cases r with
  | error e => exact ⟨hr.1, .inl hr.2⟩
  | ok out =>
    have hp : ¬ p := hr
    exact (hf out).congr (or_iff_right hp).symm

theorem failsIff_mapM {α : Type} {f : α → Except TemplateError Output} {p : α → Prop}
    {as : List α} (h : ∀ a ∈ as, FailsIff (p a) (f a)) :
    match as.mapM f with
    | .ok _ => ¬ ∃ a ∈ as, p a
    | .error e => e = tooDeep ∧ ∃ a ∈ as, p a := by
  induction as with
  | nil =>
    rintro ⟨a, ha, _⟩
    cases ha
  | cons a as ih =>
    have ha := h a List.mem_cons_self
    have has := ih fun b hb => h b (List.mem_cons_of_mem a hb)
    rw [List.mapM_cons]
    cases hfa : f a with
    | error e =>
      rw [hfa] at ha
      exact ⟨ha.1, a, List.mem_cons_self, ha.2⟩
    | ok out =>
      rw [hfa] at ha
      cases hfas : as.mapM f with
      | error e =>
        rw [hfas] at has
        obtain ⟨he, b, hb, hpb⟩ := has
        exact ⟨he, b, List.mem_cons_of_mem a hb, hpb⟩
      | ok outs =>
        rw [hfas] at has
        rintro ⟨b, hb, hpb⟩
        rcases List.mem_cons.mp hb with rfl | hb
        · exact ha hpb
        · exact has ⟨b, hb, hpb⟩

/-- Rendering nodes comes to a reference of some kind. -/
def Comes (env : Env F) (p : FragmentRef → Scope F → Prop) (nodes : List (Dom F))
    (scope : Scope F) : Prop :=
  ∃ frag scope', Reaches env nodes scope frag scope' ∧ p frag scope'

variable {below : Descend F} {comesTo : FragmentRef → Scope F → Prop}

/-- What an element that is shown comes to: the fragment it shows, or what its children come to. -/
def Element.Comes (env : Env F) (p : FragmentRef → Scope F → Prop) (el : Element F)
    (children : List (Dom F)) (scope : Scope F) : Prop :=
  (∃ frag, el.ShowsFragment frag ∧ p frag scope) ∨
    el.ShowsChildren ∧ Kernleaf.Comes env p children scope

section Element

variable {el : Element F} {children : List (Dom F)}
  {body : Scope F → InlineMode → Except TemplateError Output}

theorem renderBody_fails
    (hbelow : ∀ frag scope mode,
      FailsIff (comesTo frag scope) (renderFragment templates below frag scope mode))
    (hbody : ∀ scope mode, FailsIff (Comes env comesTo children scope) (body scope mode))
    (hreplace : el.thReplace = none) (hvoid : el.void = false) (mode : InlineMode)
    (scope : Scope F) :
    FailsIff (el.Comes env comesTo children scope)
      (renderBody env templates below el body mode scope) := by
  unfold renderBody
  cases hinsert : el.thInsert with
  | some frag =>
    refine (hbelow frag scope mode).congr ⟨fun h => ?_, ?_⟩
    · exact .inl ⟨frag, .inr ⟨hreplace, hvoid, hinsert⟩, h⟩
    · rintro (⟨frag', hshows | ⟨-, -, hshows⟩, h⟩ | ⟨hchildren, -⟩)
      · rw [hreplace] at hshows
        cases hshows
      · rw [hinsert] at hshows
        cases hshows
        exact h
      · rw [hchildren.insert] at hinsert
        cases hinsert
  | none =>
    have hfragment : ∀ frag, ¬ el.ShowsFragment frag := by
      rintro frag (hshows | ⟨-, -, hshows⟩)
      · rw [hreplace] at hshows
        cases hshows
      · rw [hinsert] at hshows
        cases hshows
    have hno : ¬ el.ShowsChildren → ¬ el.Comes env comesTo children scope := by
      rintro hchildren (⟨frag, hshows, -⟩ | ⟨hshows, -⟩)
      · exact hfragment frag hshows
      · exact hchildren hshows
    cases htext : el.thText with
    | some e =>
      refine hno fun hchildren => ?_
      rw [hchildren.text] at htext
      cases htext
    | none =>
      cases hutext : el.thUtext with
      | some e =>
        refine hno fun hchildren => ?_
        rw [hchildren.utext] at hutext
        cases hutext
      | none =>
        refine (hbody scope mode).congr ⟨fun h => ?_, ?_⟩
        · exact .inr ⟨⟨hreplace, hvoid, hinsert, htext, hutext⟩, h⟩
        · rintro (⟨frag, hshows, -⟩ | ⟨-, h⟩)
          · exact absurd hshows (hfragment frag)
          · exact h

theorem renderInstance_fails
    (hbelow : ∀ frag scope mode,
      FailsIff (comesTo frag scope) (renderFragment templates below frag scope mode))
    (hbody : ∀ scope mode, FailsIff (Comes env comesTo children scope) (body scope mode))
    (mode : InlineMode) (scope : Scope F) :
    FailsIff (isShown env scope el = true ∧ el.Comes env comesTo children scope)
      (renderInstance env templates below el body mode scope) := by
  unfold renderInstance
  split
  next hshown =>
    refine FailsIff.congr ?_ (and_iff_right hshown).symm
    cases hreplace : el.thReplace with
    | some frag =>
      refine (hbelow frag scope mode).congr ⟨fun h => .inl ⟨frag, .inl hreplace, h⟩, ?_⟩
      rintro (⟨frag', hshows | ⟨hnone, -⟩, h⟩ | ⟨hchildren, -⟩)
      · rw [hreplace] at hshows
        cases hshows
        exact h
      · rw [hreplace] at hnone
        cases hnone
      · rw [hchildren.replace] at hreplace
        cases hreplace
    | none =>
      dsimp only
      split
      next hvoid =>
        rintro (⟨frag, hshows | ⟨-, hopen, -⟩, -⟩ | ⟨hchildren, -⟩)
        · rw [hreplace] at hshows
          cases hshows
        · rw [hvoid] at hopen
          cases hopen
        · rw [hchildren.void] at hvoid
          cases hvoid
      next hvoid =>
        have hinner := renderBody_fails hbelow hbody hreplace (Bool.eq_false_iff.mpr hvoid)
          (el.inlineMode.getD mode) scope
        refine (hinner.bind (q := False) fun out => ?_).congr (or_iff_left not_false)
        exact not_false
  next hshown => exact fun h => hshown h.1

theorem renderElement_fails
    (hbelow : ∀ frag scope mode,
      FailsIff (comesTo frag scope) (renderFragment templates below frag scope mode))
    (hbody : ∀ scope mode, FailsIff (Comes env comesTo children scope) (body scope mode))
    (mode : InlineMode) (scope : Scope F) :
    FailsIff (Comes env comesTo [.element el children] scope)
      (renderElement env templates below el body mode scope) := by
  have hcomes : Comes env comesTo [.element el children] scope ↔ ∃ scope', Iterates env el scope scope' ∧
      isShown env scope' el = true ∧ el.Comes env comesTo children scope' := by
    constructor
    · rintro ⟨frag, scope', hreach, hp⟩
      cases hreach with
      | here hopened hshows =>
        cases List.mem_singleton.mp hopened.mem
        exact ⟨scope', hopened.iterates, hopened.shown, .inl ⟨frag, hshows, hp⟩⟩
      | child hopened hshows hreach =>
        cases List.mem_singleton.mp hopened.mem
        exact ⟨_, hopened.iterates, hopened.shown, .inr ⟨hshows, frag, scope', hreach, hp⟩⟩
    · rintro ⟨scope', hiterates, hshown, hcomes⟩
      have hopened : Opened env [.element el children] scope el children scope' :=
        ⟨List.mem_singleton_self _, hiterates, hshown⟩
      rcases hcomes with ⟨frag, hshows, hp⟩ | ⟨hshows, frag, scope'', hreach, hp⟩
      · exact ⟨frag, scope', .here hopened hshows, hp⟩
      · exact ⟨frag, scope'', .child hopened hshows hreach, hp⟩
  have hinstance : ∀ scope, FailsIff (isShown env scope el = true ∧
      el.Comes env comesTo children scope) (renderInstance env templates below el body mode scope) :=
    renderInstance_fails hbelow hbody mode
  refine FailsIff.congr ?_ hcomes.symm
  unfold renderElement Iterates
  cases el.thEach with
  | none =>
    refine (hinstance scope).congr ⟨fun h => ⟨scope, rfl, h⟩, ?_⟩
    rintro ⟨scope', rfl, h⟩
    exact h
  | some each =>
    obtain ⟨var, seq⟩ := each
    dsimp only
    have hitems := failsIff_mapM fun item (_ : item ∈ ((eval env scope seq).asSeq).getD []) =>
      hinstance ((var, item) :: scope)
    have hiff : (∃ item ∈ ((eval env scope seq).asSeq).getD [],
        isShown env ((var, item) :: scope) el = true ∧
          el.Comes env comesTo children ((var, item) :: scope)) ↔
        ∃ scope', (∃ item ∈ ((eval env scope seq).asSeq).getD [], scope' = (var, item) :: scope) ∧
          isShown env scope' el = true ∧ el.Comes env comesTo children scope' := by
      constructor
      · rintro ⟨item, hitem, h⟩
        exact ⟨_, ⟨item, hitem, rfl⟩, h⟩
      · rintro ⟨_, ⟨item, hitem, rfl⟩, h⟩
        exact ⟨item, hitem, h⟩
    cases hmap : (((eval env scope seq).asSeq).getD []).mapM fun item =>
        renderInstance env templates below el body mode ((var, item) :: scope) with
    | error e =>
      rw [hmap] at hitems
      exact ⟨hitems.1, hiff.mp hitems.2⟩
    | ok outs =>
      rw [hmap] at hitems
      exact fun h => hitems (hiff.mpr h)

end Element

theorem comes_cons_iff {node : Dom F} {nodes : List (Dom F)} {scope : Scope F} :
    Comes env comesTo (node :: nodes) scope ↔
      Comes env comesTo [node] scope ∨ Comes env comesTo nodes scope := by
  have hmono : ∀ {nodes nodes' : List (Dom F)}, nodes ⊆ nodes' →
      Comes env comesTo nodes scope → Comes env comesTo nodes' scope := by
    rintro nodes nodes' hsub ⟨frag, scope', hreach, hp⟩
    refine ⟨frag, scope', ?_, hp⟩
    cases hreach with
    | here hopened hshows => exact .here (hopened.mono hsub) hshows
    | child hopened hshows hreach => exact .child (hopened.mono hsub) hshows hreach
  constructor
  · rintro ⟨frag, scope', hreach, hp⟩
    have hsplit : ∀ {el : Element F} {children : List (Dom F)} {scope'' : Scope F},
        Opened env (node :: nodes) scope el children scope'' →
        Opened env [node] scope el children scope'' ∨
          Opened env nodes scope el children scope'' := by
      intro el children scope'' hopened
      rcases List.mem_cons.mp hopened.mem with h | h
      · exact .inl ⟨List.mem_singleton.mpr h, hopened.iterates, hopened.shown⟩
      · exact .inr ⟨h, hopened.iterates, hopened.shown⟩
    cases hreach with
    | here hopened hshows =>
      exact (hsplit hopened).imp (fun h => ⟨frag, scope', .here h hshows, hp⟩)
        fun h => ⟨frag, scope', .here h hshows, hp⟩
    | child hopened hshows hreach =>
      exact (hsplit hopened).imp (fun h => ⟨frag, scope', .child h hshows hreach, hp⟩)
        fun h => ⟨frag, scope', .child h hshows hreach, hp⟩
  · rintro (h | h)
    · exact hmono (by simp) h
    · exact hmono (List.subset_cons_self node nodes) h

theorem not_comes_of_plain {d : Dom F} {scope : Scope F}
    (hd : ∀ el children, d ≠ .element el children) : ¬ Comes env comesTo [d] scope := by
  rintro ⟨frag, scope', hreach, -⟩
  cases hreach with
  | here hopened _ => exact hd _ _ (List.mem_singleton.mp hopened.mem).symm
  | child hopened _ _ => exact hd _ _ (List.mem_singleton.mp hopened.mem).symm

mutual

theorem renderNode_fails
    (hbelow : ∀ frag scope mode,
      FailsIff (comesTo frag scope) (renderFragment templates below frag scope mode))
    (d : Dom F) (scope : Scope F) (mode : InlineMode) :
    FailsIff (Comes env comesTo [d] scope) (renderNode env templates below d scope mode) := by
  match d with
  | .text _ | .inline _ | .comment _ | .declaration _ =>
    refine not_comes_of_plain fun el children h => ?_
    cases h
  | .element el children =>
    exact renderElement_fails hbelow (renderNodesWith_fails hbelow children) mode scope

theorem renderNodesWith_fails
    (hbelow : ∀ frag scope mode,
      FailsIff (comesTo frag scope) (renderFragment templates below frag scope mode))
    (nodes : List (Dom F)) (scope : Scope F) (mode : InlineMode) :
    FailsIff (Comes env comesTo nodes scope)
      (renderNodesWith env templates below nodes scope mode) := by
  match nodes with
  | [] =>
    rintro ⟨frag, scope', hreach, -⟩
    cases hreach with
    | here hopened _ => cases hopened.mem
    | child hopened _ _ => cases hopened.mem
  | node :: nodes =>
    unfold renderNodesWith
    refine FailsIff.congr ?_ comes_cons_iff.symm
    refine (renderNode_fails hbelow node scope mode).bind fun out => ?_
    have hrest := renderNodesWith_fails hbelow nodes scope mode
    refine (hrest.bind (q := False) fun outs => ?_).congr (or_iff_left not_false)
    exact not_false

end

/-- Rendering fails exactly if it comes to a reference inside as many fragments as are allowed, and
then with the nesting error. -/
theorem renderNodes_fails (levels : Nat) (nodes : List (Dom F)) (scope : Scope F)
    (mode : InlineMode) :
    FailsIff (Nests env templates levels nodes scope)
      (renderNodes env templates levels nodes scope mode) := by
  induction levels generalizing nodes scope mode with
  | zero =>
    have hbelow : ∀ (frag : FragmentRef) (scope : Scope F) (mode : InlineMode),
        FailsIff ((fun _ _ => True : FragmentRef → Scope F → Prop) frag scope)
          (renderFragment templates none frag scope mode) := fun _ _ _ => ⟨rfl, trivial⟩
    refine (renderNodesWith_fails hbelow nodes scope mode).congr ?_
    constructor
    · rintro ⟨frag, scope', hreach, -⟩
      exact .reached hreach
    · intro h
      cases h with
      | reached hreach => exact ⟨_, _, hreach, trivial⟩
  | succ levels ih =>
    have hbelow : ∀ (frag : FragmentRef) (scope : Scope F) (mode : InlineMode),
        FailsIff (∃ nodes', resolveFragment templates frag = some nodes' ∧
            Nests env templates levels nodes' scope)
          (renderFragment templates (some (renderNodes env templates levels)) frag scope mode) := by
      intro frag scope mode
      unfold renderFragment
      dsimp only
      cases hresolve : resolveFragment templates frag with
      | none =>
        rintro ⟨nodes', h, -⟩
        cases h
      | some nodes' =>
        refine (ih nodes' scope mode).congr ⟨fun h => ⟨nodes', rfl, h⟩, ?_⟩
        rintro ⟨_, ⟨⟩, h⟩
        exact h
    refine (renderNodesWith_fails hbelow nodes scope mode).congr ?_
    constructor
    · rintro ⟨frag, scope', hreach, nodes', hresolve, h⟩
      exact .entered hreach hresolve h
    · intro h
      cases h with
      | entered hreach hresolve h => exact ⟨_, _, hreach, _, hresolve, h⟩

end Nesting

section Engine

variable {F : Type} [StdLib F]

/-- What rendering reads besides the templates. -/
def envOf (engine : Kernleaf F) (model : Value F) (ctx : RenderContext) : Env F :=
  ⟨model, engine.messages, [], ctx.authz.getD anonymous, ctx.csrf⟩

/-- Whatever the order of the map, references resolve in the template they name or are written in,
the output is that of the linked templates, and the nesting error comes of nesting only. -/
structure IncludesAsWritten (engine : Kernleaf F) : Prop where
  resolves : ∀ order : Templates F, order.entries.Perm engine.templates.entries →
    ∀ tpl dom, engine.templates.lookup tpl = some dom →
      References (fun frag => resolveFragment order frag = meantBy engine.templates dom frag) dom
  output : ∀ order : Templates F, order.entries.Perm engine.templates.entries →
    ∀ template model ctx,
      renderWith ⟨order, engine.messages⟩ template model ctx =
        renderWith ⟨linkTemplates engine.templates, engine.messages⟩ template model ctx
  nesting : ∀ template model ctx, engine.renderWith template model ctx = .error tooDeep ↔
    ∃ dom, engine.templates.lookup template = some dom ∧
      Nests (envOf engine model ctx) engine.templates maxFragmentDepth dom []

theorem renderWith_link {engine : Kernleaf F} {order : Templates F}
    (hp : order.entries.Perm engine.templates.entries)
    (hall : ∀ tpl dom, engine.templates.lookup tpl = some dom →
      References (Settled engine.templates order tpl) dom)
    (template : Text) (model : Value F) (ctx : RenderContext) :
    renderWith ⟨order, engine.messages⟩ template model ctx =
      renderWith ⟨linkTemplates engine.templates, engine.messages⟩ template model ctx := by
  have hlookup : order.lookup template = engine.templates.lookup template := AList.perm_lookup hp
  unfold renderWith renderChunks
  dsimp only
  rw [hlookup]
  unfold linkTemplates
  rw [Table.lookup_mapWithKey]
  cases hdom : engine.templates.lookup template with
  | none => rfl
  | some dom =>
    have hlink : renderNodes (envOf engine model ctx) order maxFragmentDepth dom [] .html =
        renderNodes (envOf engine model ctx) (linkTemplates engine.templates) maxFragmentDepth
          (linkNodes template dom) [] .html :=
      renderNodes_link hall maxFragmentDepth template dom dom [] .html hdom (hall template dom hdom)
    exact congrArg (Except.map Output.text) hlink

theorem renderWith_tooDeep_iff (engine : Kernleaf F) (template : Text) (model : Value F)
    (ctx : RenderContext) :
    engine.renderWith template model ctx = .error tooDeep ↔
      ∃ dom, engine.templates.lookup template = some dom ∧
        Nests (envOf engine model ctx) engine.templates maxFragmentDepth dom [] := by
  unfold renderWith renderChunks
  cases engine.templates.lookup template with
  | none =>
    refine iff_of_false (fun h => ?_) ?_
    · have hhead : some 'n' = some 'f' := congrArg List.head? (Except.error.inj h)
      revert hhead
      decide
    · rintro ⟨dom, h, -⟩
      cases h
  | some dom =>
    have hfails : FailsIff
        (Nests (envOf engine model ctx) engine.templates maxFragmentDepth dom [])
        (renderNodes (envOf engine model ctx) engine.templates maxFragmentDepth dom [] .html) :=
      renderNodes_fails maxFragmentDepth dom [] .html
    show Except.map Output.text (renderNodes (envOf engine model ctx) engine.templates
      maxFragmentDepth dom [] .html) = .error tooDeep ↔ _
    cases hr : renderNodes (envOf engine model ctx) engine.templates maxFragmentDepth dom [] .html with
    | error e =>
      rw [hr] at hfails
      exact iff_of_true (congrArg Except.error hfails.1) ⟨dom, rfl, hfails.2⟩
    | ok out =>
      rw [hr] at hfails
      refine iff_of_false (fun h => ?_) ?_
      · cases h
      · rintro ⟨_, ⟨⟩, h⟩
        exact hfails h

/-- Fragments are included as written exactly where no reference is shadowed by another template. -/
theorem includes_iff (engine : Kernleaf F) :
    IncludesAsWritten engine ↔ ∀ tpl dom, engine.templates.lookup tpl = some dom →
      References (Unshadowed engine.templates dom) dom := by
  constructor
  · intro h tpl dom hdom d hd
    have hevery : ∀ d : Dom F, (∀ order : Templates F,
        order.entries.Perm engine.templates.entries → d.Every fun d => ∀ frag, d.Refers frag →
          resolveFragment order frag = meantBy engine.templates dom frag) →
        d.Every fun d => ∀ frag, d.Refers frag → Unshadowed engine.templates dom frag := by
      intro d hd
      have hself := hd engine.templates (List.Perm.refl _)
      induction hself with
      | intro _ _ ih =>
        refine .intro (fun frag hrefers => ?_) fun c hc =>
          ih c hc fun order hp => (hd order hp).ofChild c hc
        exact (resolves_iff hdom frag).mp fun order hp => (hd order hp).here frag hrefers
    exact hevery d fun order hp => h.resolves order hp tpl dom hdom d hd
  · intro h
    have hsettled : ∀ order : Templates F, order.entries.Perm engine.templates.entries →
        ∀ tpl dom, engine.templates.lookup tpl = some dom →
          References (fun frag => resolveFragment order frag =
            meantBy engine.templates dom frag) dom :=
      fun order hp tpl dom hdom => (h tpl dom hdom).mono fun frag hfrag =>
        (resolves_iff hdom frag).mpr hfrag order hp
    refine ⟨hsettled, fun order hp => renderWith_link hp fun tpl dom hdom => ?_,
      renderWith_tooDeep_iff engine⟩
    refine (hsettled order hp tpl dom hdom).mono fun frag hfrag nodes hnodes => ?_
    rw [hdom] at hnodes
    cases hnodes
    exact hfrag

end Engine

/-- `<p th:replace=":: nav"></p><b th:fragment="nav"></b>` -/
def navPage : List (Dom Unit) :=
  [.element { tag := ['p'], void := false, thReplace := some ⟨none, ['n', 'a', 'v']⟩ } [],
    .element { tag := ['b'], void := false, thFragment := some ['n', 'a', 'v'] } []]

/-- `<i th:fragment="nav"></i>` -/
def navOther : List (Dom Unit) :=
  [.element { tag := ['i'], void := false, thFragment := some ['n', 'a', 'v'] } []]

/-- The order of the map decides which of two fragments of a name is included. -/
theorem not_includesAsWritten :
    ¬ ∀ (F : Type) (_ : StdLib F) (engine : Kernleaf F), IncludesAsWritten engine := by
  intro h
  let templates : Templates Unit := AList.insert ['o'] navOther (AList.insert ['p'] navPage ∅)
  let order : Templates Unit := AList.insert ['p'] navPage (AList.insert ['o'] navOther ∅)
  have hinc := h Unit noNumbers ⟨templates, ∅⟩
  have hperm : order.entries.Perm templates.entries := List.Perm.swap _ _ _
  have hone := hinc.output templates (List.Perm.refl _) ['p'] .null {}
  have htwo := hinc.output order hperm ['p'] .null {}
  have hsame := hone.trans htwo.symm
  have hleft : renderWith ⟨templates, ∅⟩ ['p'] .null {} = .ok "<i></i><b></b>".toList := by
    decide +kernel
  have hright : renderWith ⟨order, ∅⟩ ['p'] .null {} = .ok "<b></b><b></b>".toList := by
    decide +kernel
  rw [hleft, hright] at hsame
  revert hsame
  decide

end Kernway.Kernleaf
