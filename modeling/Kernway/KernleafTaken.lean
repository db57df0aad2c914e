import Kernway.KernleafLexemes

namespace Kernway.Kernleaf

section Shown

variable {F : Type} [StdLib F] {node : Dom F} {nodes children : List (Dom F)} {l l' : List Lexeme}

/-- Nodes whose output has the lexemes, with whatever they are rendered. -/
def Shows (nodes : List (Dom F)) (l : List Lexeme) : Prop :=
  ∀ env templates descend scope mode, ∃ out,
    renderNodesWith env templates descend nodes scope mode = .ok out ∧ Emits l out

theorem shows_nil : Shows ([] : List (Dom F)) [] :=
  fun _ _ _ _ _ => ⟨[], rfl, .nil⟩

theorem Shows.cons (h : Shows [node] l) (h' : Shows nodes l') : Shows (node :: nodes) (l ++ l') := by
  intro env templates descend scope mode
  obtain ⟨out, hout, hl⟩ := h env templates descend scope mode
  obtain ⟨out', hout', hl'⟩ := h' env templates descend scope mode
  refine ⟨out ++ out', ?_, hl.append hl'⟩
  rw [renderNodesWith] at hout
  obtain ⟨first, hfirst, hout⟩ := bind_eq_ok_iff.mp hout
  rw [renderNodesWith] at hout
  cases hout
  rw [renderNodesWith, hfirst, hout', List.append_nil]
  rfl

theorem Emits.single {x : Lexeme} {p : Output} (h : x.piece = some p) : Emits [x] p := by
  have happ := Emits.piece h .nil
  rwa [List.append_nil] at happ

theorem shows_text (s : Text) : Shows ([.text s] : List (Dom F)) [.text s] :=
  fun _ _ _ _ _ => ⟨_, rfl, .single rfl⟩

theorem shows_comment (body : Text) : Shows ([.comment body] : List (Dom F)) [.comment body] :=
  fun _ _ _ _ _ => ⟨_, rfl, .single rfl⟩

theorem shows_declaration (s : Text) : Shows ([.declaration s] : List (Dom F)) [.declaration s] :=
  fun _ _ _ _ _ => ⟨_, rfl, .single rfl⟩

variable (name : Text) (attrs : List (Text × Text)) (void : Bool)

/-- An element without directives. -/
def plainElement : Element F := { tag := name, void, staticAttrs := keptAttrs attrs }

theorem piece_startTag (env : Env F) (scope : Scope F) :
    (Lexeme.startTag name attrs void).piece =
      some (renderStartTag env scope (plainElement name attrs void)) := by
  rw [renderStartTag_eq, writtenAttrs, plainElement, List.map_nil, List.append_nil, Lexeme.piece]

theorem shows_void : Shows [.element (plainElement name attrs true) children]
    [.startTag name attrs true] := by
  intro env templates descend scope mode
  refine ⟨renderStartTag env scope (plainElement name attrs true) ++ [], rfl, ?_⟩
  rw [List.append_nil]
  exact .single (piece_startTag name attrs true env scope)

theorem shows_element (h : Shows children l) (hl' : ∀ x ∈ l', x = .endTag) :
    Shows [.element (plainElement name attrs false) children]
      (.startTag name attrs false :: l ++ l') := by
  intro env templates descend scope mode
  obtain ⟨inner, hinner, hl⟩ := h env templates descend scope mode
  have hpiece := piece_startTag name attrs false env scope
  have hend : Emits l (inner ++ renderEndTag (plainElement name attrs false : Element F)) := by
    have happ := hl.append (.endTag name .nil)
    rwa [List.append_nil] at happ
  generalize hel : (plainElement name attrs false : Element F) = el at hpiece hend
  have hbody : Emits l (renderCsrf env el ++ (inner ++ renderEndTag el)) := by
    unfold renderCsrf
    split
    next token _ =>
      split
      next => exact .field token hend
      next => exact hend
    next => exact hend
  refine ⟨renderStartTag env scope el ++ (renderCsrf env el ++ (inner ++ renderEndTag el)), ?_,
    (Emits.piece hpiece hbody).append_endTags hl'⟩
  rw [renderNodesWith, renderNode]
  subst hel
  simp only [renderElement, renderInstance, isShown, renderBody, plainElement, Option.all_none,
    Bool.and_self, if_true, Bool.false_eq_true, if_false, Option.getD_none, hinner]
  simp [bind, Except.bind, renderNodesWith]

end Shown

section Plain

variable {F : Type} (parseExpr : Text → Except TemplateError (Expr F))

theorem compileText_plain {s : Text} (h : (Lexeme.text s).plain = true) :
    compileText parseExpr s = .ok (.text s) := by
  unfold compileText
  exact if_pos h

theorem keptAttrs_cons (a : Text × Text) (attrs : List (Text × Text)) :
    keptAttrs (a :: attrs) =
      if a.1 = "xmlns:th".toList then keptAttrs attrs else a :: keptAttrs attrs := by
  unfold keptAttrs
  generalize "xmlns:th".toList = ns
  by_cases h : a.1 = ns <;> simp [h]

theorem buildElement_plain {name : Text} {attrs : List (Text × Text)} {void : Bool}
    (h : (Lexeme.startTag name attrs void).plain = true) :
    buildElement parseExpr name void attrs = .ok (plainElement name attrs void) := by
  have hfold : ∀ el : Element F, attrs.foldlM (fun el a => addAttr parseExpr el a.1 a.2) el =
      .ok { el with staticAttrs := el.staticAttrs ++ keptAttrs attrs } := by
    simp only [Lexeme.plain] at h
    induction attrs with
    | nil =>
      intro el
      rw [keptAttrs, List.filter_nil, List.append_nil]
      rfl
    | cons a attrs ih =>
      intro el
      rw [List.all_cons, Bool.and_eq_true, Option.isNone_iff_eq_none] at h
      obtain ⟨hth, hrest⟩ := h
      rw [List.foldlM_cons, addAttr]
      by_cases hns : a.1 = "xmlns:th".toList
      · rw [if_pos hns, keptAttrs_cons, if_pos hns]
        exact ih hrest el
      · rw [if_neg hns, hth, keptAttrs_cons, if_neg hns]
        have hnext := ih hrest { el with staticAttrs := el.staticAttrs ++ [a] }
        rw [List.append_assoc] at hnext
        exact hnext
  exact hfold _

end Plain

section Nesting

variable {l : List Lexeme} {s rest : Text}

theorem behindStray_start (depth : Nat) (name : Text) (attrs : List (Text × Text)) :
    behindStray depth (.startTag name attrs false :: l) = behindStray (depth + 1) l := by
  cases depth <;> rfl

/-- Lexemes that open and close nothing. -/
def Lexeme.flat : Lexeme → Bool
  | endTag => false
  | startTag _ _ void => void
  | _ => true

theorem behindStray_flat (depth : Nat) {x : Lexeme} (h : x.flat = true) :
    behindStray depth (x :: l) = behindStray depth l := by
  cases x with
  | endTag => cases h
  | startTag name attrs void =>
    cases h
    cases depth <;> rfl
  | _ => cases depth <;> rfl

/-- Where siblings end: before a close tag, or with the source. -/
def AtClose (rest : Text) : Prop := rest = [] ∨ ∃ t, rest = '<' :: '/' :: t

/-- What is read past the content of an element. -/
theorem AtClose.skip (h : AtClose rest) :
    ∃ l, scan rest = l ++ scan (skipCloseTag rest) ∧ (∀ x ∈ l, x = .endTag) ∧
      ∀ depth, behindStray (depth + 1) (scan rest) = behindStray depth (scan (skipCloseTag rest)) := by
  rcases h with rfl | ⟨t, rfl⟩
  · refine ⟨[], rfl, by simp, fun depth => ?_⟩
    have hskip : skipCloseTag [] = [] := rfl
    rw [hskip, scan_nil]
    cases depth <;> rfl
  · have hscan : scan ('<' :: '/' :: t) = .endTag :: scan (skipCloseTag ('<' :: '/' :: t)) := by
      rw [scan_cons, firstLexemes, if_neg (fun h => h rfl), List.head?_cons, if_pos rfl]
      rfl
    refine ⟨[.endTag], hscan, by simp, fun depth => ?_⟩
    rw [hscan, behindStray]

/-- The lexemes up to `rest`, which leave no more and no fewer elements open. -/
structure Taken (l : List Lexeme) (s rest : Text) : Prop where
  lexemes : scan s = l ++ scan rest
  depth : ∀ depth, behindStray depth (scan s) = behindStray depth (scan rest)

theorem Taken.refl (s : Text) : Taken [] s s := ⟨rfl, fun _ => rfl⟩

theorem Taken.trans {l' : List Lexeme} {s' : Text} (h : Taken l s s') (h' : Taken l' s' rest) :
    Taken (l ++ l') s rest := by
  refine ⟨?_, fun depth => (h.depth depth).trans (h'.depth depth)⟩
  rw [h.lexemes, h'.lexemes, List.append_assoc]

theorem taken_flat {x : Lexeme} (hx : x.flat = true) (h : scan s = x :: scan rest) :
    Taken [x] s rest := by
  refine ⟨h, fun depth => ?_⟩
  rw [h, behindStray_flat depth hx]

end Nesting

section Values

variable {F : Type} (parseExpr : Text → Except TemplateError (Expr F))

/-- A reading without the proof of what it leaves. -/
def values {α : Type} {s : Text} (res : Except TemplateError (Read α s)) :
    Except TemplateError (α × Text) :=
  res.map Subtype.val

theorem values_eq_ok {α : Type} {s rest : Text} {res : Except TemplateError (Read α s)} {a : α}
    (h : values res = .ok (a, rest)) : rest <:+ s := by
  obtain ⟨r, -, heq⟩ := map_eq_ok_iff.mp h
  have hsuf := r.2
  rwa [heq] at hsuf

theorem parseNodes_nil : values (parseNodes parseExpr []) = .ok ([], []) := by
  rw [parseNodes]
  rfl

theorem parseNodes_cons (c : Char) (s : Text) :
    values (parseNodes parseExpr (c :: s)) =
      if c = '<' ∧ s.head? = some '/' then .ok ([], c :: s)
      else (do
        let (node, rest₁) ← values (readNode parseExpr c s)
        let (nodes, rest₂) ← values (parseNodes parseExpr rest₁)
        .ok (node :: nodes, rest₂)) := by
  rw [parseNodes]
  split
  next => rfl
  next =>
    cases readNode parseExpr c s with
    | error e => rfl
    | ok r =>
      obtain ⟨⟨node, rest₁⟩, h₁⟩ := r
      simp only [bind, Except.bind, values, Except.map]
      cases parseNodes parseExpr rest₁ <;> rfl

theorem readText_values (c : Char) (s : Text) :
    values (readText parseExpr c s) = (do
      let node ← compileText parseExpr (c :: s.takeWhile (· ≠ '<'))
      .ok (node, s.dropWhile (· ≠ '<'))) := by
  unfold readText
  cases compileText parseExpr (c :: s.takeWhile (· ≠ '<')) <;> rfl

theorem readComment_values (s : Text) :
    values (readComment (F := F) s) = match cutText "-->".toList s with
      | none => .error "unterminated comment".toList
      | some (body, rest) => .ok (.comment body, rest) := by
  unfold readComment
  split
  next hcut =>
    rw [hcut]
    rfl
  next hcut =>
    simp only [hcut]
    rfl

theorem readDeclaration_values (s : Text) :
    values (readDeclaration (F := F) s) = match cutAt '>' s with
      | none => .error "unterminated `<!…>`".toList
      | some (body, rest) => .ok (.declaration ('<' :: body ++ ['>']), rest) := by
  unfold readDeclaration
  split
  next hcut =>
    rw [hcut]
    rfl
  next hcut =>
    simp only [hcut]
    rfl

theorem readNode_values (c : Char) (s : Text) :
    values (readNode parseExpr c s) =
      if c ≠ '<' then values (readText parseExpr c s)
      else if "!--".toList.isPrefixOf s then values (readComment (s.drop 3))
      else if s.head? = some '!' then values (readDeclaration s)
      else values (readElement parseExpr s) := by
  rw [readNode]
  split
  next => rfl
  next =>
    split
    next =>
      cases readComment (F := F) (s.drop 3) <;> rfl
    next =>
      split <;> rfl

/-- The content of an element, from after its start tag. -/
def readContent (tagLower : Text) (void : Bool) (s : Text) :
    Except TemplateError (List (Dom F) × Text) :=
  if void then .ok ([], s)
  else if rawTextTags.contains tagLower then do
    let node ← compileText parseExpr (readRawText tagLower s).1
    .ok ([node], (readRawText tagLower s).2)
  else values (parseNodes parseExpr s)

theorem readElement_values (s : Text) :
    values (readElement parseExpr s) =
      if (readName s).1 = [] then .error "`<` without a tag name".toList
      else match readAttrs [] (readName s).2 with
        | .error e => .error e
        | .ok (attrs, selfClosing, rest) => (do
          let tagLower := toAsciiLowercase (readName s).1
          let void := selfClosing || voidTags.contains tagLower
          let (children, rest₁) ← readContent parseExpr tagLower void rest
          let el ← buildElement parseExpr (readName s).1 void attrs
          .ok (.element el children, if void then rest₁ else skipCloseTag rest₁)) := by
  rw [readElement]
  dsimp only
  split
  next => rfl
  next =>
    split
    next hattrs => rw [hattrs]; rfl
    next attrs selfClosing rest hattrs =>
      simp only [hattrs]
      unfold readContent
      generalize hbuild : buildElement parseExpr (readName s).1
        (selfClosing || voidTags.contains (toAsciiLowercase (readName s).1)) attrs = built
      split
      next => cases built <;> rfl
      next =>
        split
        next =>
          unfold readRawChildren
          cases compileText parseExpr (readRawText (toAsciiLowercase (readName s).1) rest).1 with
          | error e => rfl
          | ok node => cases built <;> rfl
        next =>
          cases parseNodes parseExpr rest with
          | error e => rfl
          | ok r => cases built <;> rfl

theorem parseNodes_atClose (n : Nat) : ∀ (s : Text), s.length = n →
    ∀ (nodes : List (Dom F)) (rest : Text), values (parseNodes parseExpr s) = .ok (nodes, rest) →
      AtClose rest := by
  induction n using Nat.strongRecOn with
  | _ n ih =>
    intro s hl nodes rest h
    cases s with
    | nil =>
      rw [parseNodes_nil] at h
      cases h
      exact .inl rfl
    | cons c s =>
      rw [parseNodes_cons] at h
      split at h
      next hclose =>
        cases h
        obtain ⟨rfl, hslash⟩ := hclose
        obtain ⟨t, rfl⟩ := List.head?_eq_some_iff.mp hslash
        exact .inr ⟨t, rfl⟩
      next =>
        obtain ⟨⟨node, rest₁⟩, hnode, h⟩ := bind_eq_ok_iff.mp h
        obtain ⟨⟨nodes', rest₂⟩, hnodes, h⟩ := bind_eq_ok_iff.mp h
        cases h
        have hlen := (values_eq_ok hnode).length_le
        rw [List.length_cons] at hl
        exact ih rest₁.length (by omega) rest₁ rfl nodes' _ hnodes

end Values

section Accounted

variable {F : Type} [StdLib F] {α : Type} {s source : Text}

/-- How a reading of `source` ends: its lexemes are in the nodes, or it has no stray end tag. -/
def Accounted (source : Text) (nodes : α → List (Dom F)) : Except TemplateError (α × Text) → Prop
  | .ok (a, rest) => ∃ l, Taken l source rest ∧ Shows (nodes a) l
  | .error _ => ∀ depth, behindStray depth (scan source) = []

theorem accounted_unread {nodes : α → List (Dom F)} (e : TemplateError)
    (h : scan source = [.unread]) : Accounted source nodes (.error e) := by
  intro depth
  rw [h]
  cases depth <;> rfl

theorem accounted_flat {x : Lexeme} {rest : Text} {node : Dom F} (hx : x.flat = true)
    (hscan : scan source = x :: scan rest) (hshows : Shows [node] [x]) :
    Accounted source (fun d => [d]) (.ok (node, rest)) :=
  ⟨[x], taken_flat hx hscan, hshows⟩

theorem plain_of_taken {l : List Lexeme} {rest : Text} (h : Taken l s rest)
    (hplain : ∀ x ∈ scan s, x.plain = true) : ∀ x ∈ scan rest, x.plain = true := by
  intro x hx
  apply hplain
  rw [h.lexemes]
  exact List.mem_append_right l hx

variable (parseExpr : Text → Except TemplateError (Expr F))

/-- What holds of the siblings at the front of a source without directives. -/
def NodesAccounted (s : Text) : Prop :=
  (∀ x ∈ scan s, x.plain = true) → Accounted s id (values (parseNodes parseExpr s))

/-- An element that is not void, with its content and what closes it. -/
theorem accounted_element {name rest : Text} {attrs : List (Text × Text)}
    {children : List (Dom F)} {l : List Lexeme}
    (hscan : scan s = .startTag name attrs false :: (l ++ scan rest))
    (hdepth : ∀ depth, behindStray depth (l ++ scan rest) = behindStray depth (scan rest))
    (hclose : AtClose rest) (hshows : Shows children l) :
    Accounted s (fun d => [d])
      (.ok (.element (plainElement name attrs false) children, skipCloseTag rest)) := by
  obtain ⟨l', hskip, hl', hclosed⟩ := hclose.skip
  refine ⟨.startTag name attrs false :: l ++ l', ⟨?_, fun depth => ?_⟩,
    shows_element name attrs hshows hl'⟩
  · rw [hscan, hskip, List.cons_append, List.cons_append, List.append_assoc]
  · rw [hscan, behindStray_start, hdepth, hclosed]

theorem readRawText_atClose (name s : Text) : AtClose (readRawText name s).2 := by
  induction s with
  | nil => exact .inl rfl
  | cons c s ih =>
    unfold readRawText
    split
    next hclose =>
      unfold isCloseTag at hclose
      split at hclose
      next t heq => exact .inr ⟨t, heq⟩
      next => cases hclose
    next => exact ih

theorem readElement_accounted {s : Text}
    (ih : ∀ t : Text, t.length ≤ s.length → NodesAccounted parseExpr t)
    (hscan : scan ('<' :: s) = (startLexemes s).1 ++ scan (startLexemes s).2)
    (hplain : ∀ x ∈ scan ('<' :: s), x.plain = true) :
    Accounted ('<' :: s) (fun d => [d]) (values (readElement parseExpr s)) := by
  unfold startLexemes at hscan
  rw [readElement_values]
  dsimp only at hscan ⊢
  by_cases hname : (readName s).1 = []
  · rw [if_pos hname, scan_nil] at hscan
    rw [if_pos hname]
    exact accounted_unread _ hscan
  rw [if_neg hname] at hscan ⊢
  cases hattrs : readAttrs [] (readName s).2 with
  | error e =>
    rw [hattrs, scan_nil] at hscan
    exact accounted_unread _ hscan
  | ok read =>
    obtain ⟨attrs, selfClosing, rest⟩ := read
    have hrest := ((readAttrs_in hattrs).1.trans (readName_suffix s)).length_le
    rw [hattrs] at hscan
    dsimp only at hscan ⊢
    generalize (readName s).1 = name at hscan
    generalize toAsciiLowercase name = tagLower at hscan
    generalize (selfClosing || voidTags.contains tagLower) = void at hscan
    cases void with
    | true =>
      rw [if_pos rfl] at hscan
      have htag : (Lexeme.startTag name attrs true).plain = true := by
        apply hplain
        rw [hscan]
        exact List.mem_cons_self
      rw [readContent, if_pos rfl, buildElement_plain parseExpr htag]
      exact accounted_flat rfl hscan (shows_void name attrs)
    | false =>
      rw [if_neg Bool.false_ne_true] at hscan
      rw [readContent, if_neg Bool.false_ne_true]
      cases hraw : rawTextTags.contains tagLower with
      | true =>
        rw [if_pos hraw] at hscan
        have htag : (Lexeme.startTag name attrs false).plain = true := by
          apply hplain
          rw [hscan]
          exact List.mem_cons_self
        have htext : (Lexeme.text (readRawText tagLower rest).1).plain = true := by
          apply hplain
          rw [hscan]
          exact List.mem_cons_of_mem _ List.mem_cons_self
        rw [if_pos rfl, compileText_plain parseExpr htext, buildElement_plain parseExpr htag]
        exact accounted_element hscan (fun depth => behindStray_flat depth rfl)
          (readRawText_atClose tagLower rest) (shows_text _)
      | false =>
        rw [hraw, if_neg Bool.false_ne_true] at hscan
        have htag : (Lexeme.startTag name attrs false).plain = true := by
          apply hplain
          rw [hscan]
          exact List.mem_cons_self
        have hinside : ∀ x ∈ scan rest, x.plain = true := by
          intro x hx
          apply hplain
          rw [hscan]
          exact List.mem_cons_of_mem _ hx
        have hnodes := ih rest hrest hinside
        rw [if_neg Bool.false_ne_true, buildElement_plain parseExpr htag]
        cases hcontent : values (parseNodes parseExpr rest) with
        | error e =>
          rw [hcontent] at hnodes
          intro depth
          have hstart : scan ('<' :: s) = .startTag name attrs false :: scan rest := hscan
          rw [hstart, behindStray_start]
          exact hnodes (depth + 1)
        | ok read =>
          obtain ⟨children, rest₁⟩ := read
          rw [hcontent] at hnodes
          obtain ⟨l, htaken, hshows⟩ := hnodes
          have hclose := parseNodes_atClose parseExpr _ rest rfl children rest₁ hcontent
          have hstart : scan ('<' :: s) = .startTag name attrs false :: (l ++ scan rest₁) := by
            rw [← htaken.lexemes]
            exact hscan
          refine accounted_element hstart (fun depth => ?_) hclose hshows
          rw [← htaken.lexemes]
          exact htaken.depth depth

theorem readNode_accounted {c : Char} {s : Text}
    (ih : ∀ t : Text, t.length ≤ s.length → NodesAccounted parseExpr t)
    (hopen : ¬ (c = '<' ∧ s.head? = some '/')) (hplain : ∀ x ∈ scan (c :: s), x.plain = true) :
    Accounted (c :: s) (fun d => [d]) (values (readNode parseExpr c s)) := by
  have hscan := scan_cons c s
  unfold firstLexemes at hscan
  rw [readNode_values]
  by_cases hc : c ≠ '<'
  · rw [if_pos hc] at hscan ⊢
    have htext : (Lexeme.text (c :: s.takeWhile (· ≠ '<'))).plain = true := by
      apply hplain
      rw [hscan]
      exact List.mem_cons_self
    rw [readText_values, compileText_plain parseExpr htext]
    exact accounted_flat rfl hscan (shows_text _)
  rw [if_neg hc] at hscan ⊢
  obtain rfl := not_not.mp hc
  rw [if_neg fun h => hopen ⟨rfl, h⟩] at hscan
  by_cases hcomment : "!--".toList.isPrefixOf s
  · rw [if_pos hcomment] at hscan ⊢
    rw [readComment_values]
    cases hcut : cutText "-->".toList (s.drop 3) with
    | none =>
      rw [hcut, scan_nil] at hscan
      exact accounted_unread _ hscan
    | some cut =>
      rw [hcut] at hscan
      exact accounted_flat rfl hscan (shows_comment cut.1)
  rw [if_neg hcomment] at hscan ⊢
  by_cases hbang : s.head? = some '!'
  · rw [if_pos hbang] at hscan ⊢
    rw [readDeclaration_values]
    cases hcut : cutAt '>' s with
    | none =>
      rw [hcut, scan_nil] at hscan
      exact accounted_unread _ hscan
    | some cut =>
      rw [hcut] at hscan
      exact accounted_flat rfl hscan (shows_declaration _)
  · rw [if_neg hbang] at hscan ⊢
    exact readElement_accounted parseExpr ih hscan hplain

theorem nodesAccounted (s : Text) : NodesAccounted parseExpr s := by
  induction hl : s.length using Nat.strongRecOn generalizing s with
  | _ n ih =>
    intro hplain
    cases s with
    | nil =>
      rw [parseNodes_nil]
      exact ⟨[], .refl [], shows_nil⟩
    | cons c s =>
      rw [parseNodes_cons]
      split
      next => exact ⟨[], .refl _, shows_nil⟩
      next hopen =>
        rw [List.length_cons] at hl
        have hnode := readNode_accounted parseExpr
          (fun t ht => ih t.length (by omega) t rfl) hopen hplain
        cases hfirst : values (readNode parseExpr c s) with
        | error e =>
          rw [hfirst] at hnode
          exact hnode
        | ok read =>
          obtain ⟨node, rest₁⟩ := read
          rw [hfirst] at hnode
          obtain ⟨l, htaken, hshows⟩ := hnode
          have hlen := (values_eq_ok hfirst).length_le
          have hnodes := ih rest₁.length (by omega) rest₁ rfl (plain_of_taken htaken hplain)
          cases hsecond : values (parseNodes parseExpr rest₁) with
          | error e =>
            rw [hsecond] at hnodes
            have hstuck : Accounted (c :: s) id
                (.error e : Except TemplateError (List (Dom F) × Text)) :=
              fun depth => (htaken.depth depth).trans (hnodes depth)
            simpa only [bind, Except.bind, hsecond] using hstuck
          | ok read =>
            obtain ⟨nodes, rest₂⟩ := read
            rw [hsecond] at hnodes
            obtain ⟨l', htaken', hshows'⟩ := hnodes
            have hboth : Accounted (c :: s) id (.ok (node :: nodes, rest₂)) :=
              ⟨l ++ l', htaken.trans htaken', hshows.cons hshows'⟩
            simpa only [bind, Except.bind, hsecond] using hboth

end Accounted

end Kernway.Kernleaf
