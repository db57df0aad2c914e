import Kernway.KernleafAttrs

namespace Kernway.Kernleaf

variable {F : Type} {parseExpr : Text → Except TemplateError (Expr F)}

section Parsed

variable {p : Dom F → Prop}

/-- A property that the texts of a template have, and the elements that are read. -/
structure Shape (parseExpr : Text → Except TemplateError (Expr F)) (p : Dom F → Prop) : Prop where
  text : ∀ {raw d}, compileText parseExpr raw = .ok d → d.Every p
  comment : ∀ s, p (.comment s)
  declaration : ∀ s, p (.declaration s)
  element : ∀ {s behind : Text} {rawAttrs : List (Text × Text)} {selfClosing void : Bool}
    {el : Element F} (children : List (Dom F)), (readName s).1 ≠ [] →
    readAttrs [] (readName s).2 = .ok (rawAttrs, selfClosing, behind) →
    buildElement parseExpr (readName s).1 void rawAttrs = .ok el → p (.element el children)

mutual

theorem every_parseNodes (hp : Shape parseExpr p) {s : Text} {r : Read (List (Dom F)) s}
    (h : parseNodes parseExpr s = .ok r) : ∀ d ∈ r.1.1, d.Every p := by
  match s with
  | [] =>
    rw [parseNodes] at h
    cases h
    simp
  | c :: rest =>
    rw [parseNodes] at h
    split at h
    next =>
      cases h
      simp
    next =>
      obtain ⟨⟨⟨node, rest₁⟩, h₁⟩, hnode, h⟩ := bind_eq_ok_iff.mp h
      obtain ⟨⟨⟨nodes, rest₂⟩, h₂⟩, hnodes, h⟩ := bind_eq_ok_iff.mp h
      cases h
      intro d hd
      rcases List.mem_cons.mp hd with rfl | hd
      · exact every_readNode hp hnode
      · exact every_parseNodes hp hnodes d hd
termination_by 3 * s.length
decreasing_by
  · simp only [List.length_cons]
    omega
  · have := h₁.length_le
    simp only [List.length_cons] at *
    omega

theorem every_readNode (hp : Shape parseExpr p) {c : Char} {s : Text} {r : Read (Dom F) s}
    (h : readNode parseExpr c s = .ok r) : r.1.1.Every p := by
  rw [readNode] at h
  split at h
  next =>
    obtain ⟨node, hnode, h⟩ := bind_eq_ok_iff.mp h
    cases h
    exact hp.text hnode
  next =>
    split at h
    next =>
      obtain ⟨r', hr, rfl⟩ := map_eq_ok_iff.mp h
      unfold readComment at hr
      split at hr
      next => cases hr
      next =>
        cases hr
        exact .intro (hp.comment _) (by simp [Dom.children])
    next =>
      split at h
      next =>
        unfold readDeclaration at h
        split at h
        next => cases h
        next =>
          cases h
          exact .intro (hp.declaration _) (by simp [Dom.children])
      next => exact every_readElement hp h
termination_by 3 * s.length + 2

theorem every_readElement (hp : Shape parseExpr p) {s : Text} {r : Read (Dom F) s}
    (h : readElement parseExpr s = .ok r) : r.1.1.Every p := by
  rw [readElement] at h
  dsimp only at h
  split at h
  next => cases h
  next hname =>
    split at h
    next => cases h
    next rawAttrs selfClosing rest hattrs =>
      obtain ⟨hrest, -⟩ := readAttrs_in hattrs
      obtain ⟨⟨⟨children, rest₁⟩, h₁⟩, hchildren, h⟩ := bind_eq_ok_iff.mp h
      obtain ⟨el, hel, h⟩ := bind_eq_ok_iff.mp h
      cases h
      refine .intro (hp.element children hname hattrs hel) fun d hd => ?_
      split at hchildren
      next =>
        cases hchildren
        simp [Dom.children] at hd
      next =>
        split at hchildren
        next =>
          obtain ⟨node, hnode, hchildren⟩ := bind_eq_ok_iff.mp hchildren
          cases hchildren
          cases List.mem_singleton.mp hd
          exact hp.text hnode
        next => exact every_parseNodes hp hchildren d hd
termination_by 3 * s.length + 1
decreasing_by
  have := (hrest.trans (readName_suffix s)).length_le
  omega

end

theorem Built.every (hp : Shape parseExpr p) {engine : Kernleaf F} {sources : List Text}
    (h : Built parseExpr engine sources) :
    ∀ e ∈ engine.templates.entries, ∀ d ∈ e.2, d.Every p := by
  induction h with
  | new => simp
  | message key value _ ih => exact ih
  | @add engine _ sources name source _ hadd ih =>
    obtain ⟨⟨⟨nodes, rest⟩, hrest⟩, hnodes, hadd⟩ := bind_eq_ok_iff.mp hadd
    cases hadd
    intro e he d hd
    rcases List.mem_cons.mp he with rfl | he
    · exact every_parseNodes hp hnodes d hd
    · exact ih e ((List.kerase_sublist name _).subset he) d hd
  | rehash _ hperm ih => exact fun e he => ih e (hperm.mem_iff.mp he)

end Parsed

section Names

/-- Names as `read_name` reads them; that of a bare `th:` is empty. -/
structure Element.Spelled (el : Element F) : Prop where
  tag : ∀ c ∈ el.tag, Html.isNameChar c = true
  statics : ∀ a ∈ el.staticAttrs, Html.IsAttrName a.1
  dynamics : ∀ a ∈ el.dynamicAttrs, ∀ c ∈ a.1, Html.isNameChar c = true

def Dom.Spelled : Dom F → Prop
  | element el _ => el.Spelled
  | _ => True

theorem readName_chars (s : Text) : ∀ c ∈ (readName s).1, Html.isNameChar c = true := by
  intro c hc
  rw [← isNameChar_eq]
  exact List.mem_takeWhile_imp hc

theorem readAttr_name {s name value rest : Text} (h : readAttr s = some (.attr name value rest)) :
    Html.IsAttrName name := by
  unfold readAttr at h
  split at h
  next => cases h
  next c t hs =>
    split at h
    next => cases h
    next =>
      split at h
      next => cases h
      next =>
        dsimp only at h
        split at h
        next => cases h
        next hne =>
          have hname : Html.IsAttrName (readName (c :: t)).1 := ⟨hne, readName_chars _⟩
          split at h
          next =>
            cases h
            exact hname
          next =>
            cases h
            exact hname

theorem readAttrs_names {attrs out : List (Text × Text)} {s rest : Text} {selfClosing : Bool}
    (h : readAttrs attrs s = .ok (out, selfClosing, rest)) :
    ∀ a ∈ out, a ∈ attrs ∨ Html.IsAttrName a.1 := by
  induction hl : s.length using Nat.strongRecOn generalizing s attrs with
  | _ l ih =>
    rw [readAttrs_eq] at h
    split at h
    next => cases h
    next =>
      cases h
      exact fun a ha => .inl ha
    next rest' hstep =>
      obtain ⟨-, hlt⟩ := readAttr_in hstep
      exact ih rest'.length (by omega) h rfl
    next name value rest' hstep =>
      obtain ⟨-, hlt, -⟩ := readAttr_in hstep
      intro a ha
      rcases ih rest'.length (by omega) h rfl a ha with hmem | hname
      · rcases List.mem_append.mp hmem with hmem | hmem
        · exact .inl hmem
        · cases List.mem_singleton.mp hmem
          exact .inr (readAttr_name hstep)
      · exact .inr hname

theorem addAttr_spelled {el el' : Element F} {name value : Text} (hel : el.Spelled)
    (hname : Html.IsAttrName name) (h : addAttr parseExpr el name value = .ok el') :
    el'.Spelled := by
  obtain ⟨htag, hstatics, hset⟩ := addAttr_attrs h
  constructor
  · rw [htag]
    exact hel.tag
  · rw [hstatics]
    intro a ha
    rcases List.mem_append.mp ha with ha | ha
    · exact hel.statics a ha
    · split at ha
      next =>
        cases List.mem_singleton.mp ha
        exact hname
      next => cases ha
  · cases hattr : attrSet name with
    | none =>
      rw [hattr] at hset
      have hsame : el'.dynamicAttrs = el.dynamicAttrs := hset
      rw [hsame]
      exact hel.dynamics
    | some set =>
      rw [hattr] at hset
      obtain ⟨e, -, hadded⟩ : ∃ e, parseExpr value = .ok e ∧
          el'.dynamicAttrs = el.dynamicAttrs ++ [(set, e)] := hset
      rw [hadded]
      intro a ha
      rcases List.mem_append.mp ha with ha | ha
      · exact hel.dynamics a ha
      · cases List.mem_singleton.mp ha
        intro c hc
        apply hname.2
        obtain ⟨hth, -⟩ := Option.filter_eq_some_iff.mp hattr
        rw [isPrefixOf?_eq_some hth]
        exact List.mem_append_right _ hc

theorem shape_spelled : Shape parseExpr (Dom.Spelled (F := F)) where
  text := by
    intro raw d h
    unfold compileText at h
    split at h
    next =>
      cases h
      exact .intro trivial (by simp [Dom.children])
    next =>
      obtain ⟨parts, -, rfl⟩ := map_eq_ok_iff.mp h
      exact .intro trivial (by simp [Dom.children])
  comment := fun _ => trivial
  declaration := fun _ => trivial
  element := by
    intro s behind rawAttrs selfClosing void el children _ hattrs hel
    have hstart : Element.Spelled ({ tag := (readName s).1, void } : Element F) :=
      ⟨readName_chars s, by simp, by simp⟩
    refine foldlM_invariant (p := Element.Spelled) ?_ hstart hel
    intro el a ha el' hspelled hadd
    rcases readAttrs_names hattrs a ha with hnone | hname
    · cases hnone
    · exact addAttr_spelled hspelled hname hadd

end Names

end Kernway.Kernleaf
