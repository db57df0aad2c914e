import Kernway.KernleafGate
import Kernway.KernleafParser

namespace Kernway

namespace Kernleaf

variable {F : Type} {parseExpr : Text → Except TemplateError (Expr F)}

theorem Dom.Written.mono {p q : Text → Prop} (h : ∀ t, p t → q t) {d : Dom F}
    (hd : d.Written p) : d.Written q := by
  cases d with
  | inline parts => exact fun s hs => h s (hd s hs)
  | element el _ =>
    exact ⟨h _ hd.1, fun a ha => h _ (hd.2.1 a ha), fun a ha => h _ (hd.2.2 a ha)⟩
  | _ => exact h _ hd

theorem Dom.Every.mono {p q : Dom F → Prop} (h : ∀ d, p d → q d) {d : Dom F} (hd : d.Every p) :
    d.Every q := by
  induction hd with
  | intro hp _ ih => exact .intro (h _ hp) ih

/-- Every text of a node and of the nodes below it stands in `s`. -/
def Dom.In (s : Text) (d : Dom F) : Prop := d.Every (Dom.Written (· <:+: s))

theorem Dom.In.trans {s s' : Text} {d : Dom F} (h : d.In s) (hs : s <:+: s') : d.In s' :=
  h.mono fun _ hd => hd.mono fun _ ht => ht.trans hs

theorem compileParts_written {s : Text} {parts : List (InlinePart F)}
    (h : compileParts parseExpr s = .ok parts) : ∀ t, .lit t ∈ parts → t <:+: s := by
  induction hl : s.length using Nat.strongRecOn generalizing s parts with
  | _ l ih =>
    rw [compileParts] at h
    split at h
    next =>
      cases h
      intro t ht
      split at ht
      next => simp at ht
      next =>
        cases List.mem_singleton.mp ht
        exact List.infix_refl s
    next before isEscaped after hnext =>
      obtain ⟨opening, hne, hs⟩ := nextInline_eq_some hnext
      split at h
      next => simp at h
      next inner rest hclose =>
        obtain ⟨e, he, h⟩ := bind_eq_ok_iff.mp h
        obtain ⟨parts', hparts', h⟩ := bind_eq_ok_iff.mp h
        cases h
        have hafter := cutText_eq_some hclose
        have hrest : rest <:+: s := by
          refine ⟨before ++ opening ++ (inner ++ inlineClose isEscaped), [], ?_⟩
          rw [hs, hafter]
          simp
        have hpos := List.length_pos_iff.mpr hne
        have hlen : rest.length < s.length := by
          rw [hs, hafter]
          simp only [List.length_append]
          omega
        intro t ht
        rcases List.mem_append.mp ht with ht | ht
        · split at ht
          next => simp at ht
          next =>
            cases List.mem_singleton.mp ht
            exact ⟨[], opening ++ after, by rw [hs]; simp⟩
        · rcases List.mem_cons.mp ht with ht | ht
          · cases isEscaped <;> simp at ht
          · exact (ih rest.length (by omega) hparts' rfl t ht).trans hrest

theorem compileText_in {s : Text} {d : Dom F} (h : compileText parseExpr s = .ok d) : d.In s := by
  unfold compileText at h
  split at h
  next =>
    cases h
    exact .intro (List.infix_refl s) (by simp [Dom.children])
  next =>
    cases hp : compileParts parseExpr s with
    | error e => simp [hp, Except.map] at h
    | ok parts =>
      simp only [hp, Except.map, Except.ok.injEq] at h
      subst h
      exact .intro (compileParts_written hp) (by simp [Dom.children])

/-- The names in an element: of the tag, and of attributes, perhaps without `th:`. -/
def Element.Named (tag : Text) (rawAttrs : List (Text × Text)) (el : Element F) : Prop :=
  el.tag = tag ∧ (∀ a ∈ el.staticAttrs, ∃ r ∈ rawAttrs, a.1 <:+: r.1) ∧
    ∀ a ∈ el.dynamicAttrs, ∃ r ∈ rawAttrs, a.1 <:+: r.1

theorem addAttr_named {tag : Text} {rawAttrs : List (Text × Text)} {el el' : Element F}
    {a : Text × Text} (ha : a ∈ rawAttrs) (hel : el.Named tag rawAttrs)
    (h : addAttr parseExpr el a.1 a.2 = .ok el') : el'.Named tag rawAttrs := by
  obtain ⟨htag, hstatic, hdynamic⟩ := hel
  unfold addAttr at h
  split at h
  next =>
    cases h
    exact ⟨htag, hstatic, hdynamic⟩
  next =>
    split at h
    next =>
      cases h
      refine ⟨htag, fun x hx => ?_, hdynamic⟩
      rcases List.mem_append.mp hx with hx | hx
      · exact hstatic x hx
      · cases List.mem_singleton.mp hx
        exact ⟨a, ha, List.infix_refl _⟩
    next directive hdir =>
      have hinfix : directive <:+: a.1 := ⟨"th:".toList, [], by
        rw [List.append_nil, isPrefixOf?_eq_some hdir]⟩
      split at h
      case h_11 =>
        obtain ⟨e, -, h⟩ := bind_eq_ok_iff.mp h
        cases h
        refine ⟨htag, hstatic, fun x hx => ?_⟩
        rcases List.mem_append.mp hx with hx | hx
        · exact hdynamic x hx
        · cases List.mem_singleton.mp hx
          exact ⟨a, ha, hinfix⟩
      -- the other directives leave the names as they are
      case h_6 | h_8 | h_9 | h_10 =>
        cases h
        exact ⟨htag, hstatic, hdynamic⟩
      all_goals
        obtain ⟨e, -, h⟩ := bind_eq_ok_iff.mp h
        cases h
        exact ⟨htag, hstatic, hdynamic⟩

theorem buildElement_named {tag : Text} {void : Bool} {rawAttrs : List (Text × Text)}
    {el : Element F} (h : buildElement parseExpr tag void rawAttrs = .ok el) :
    el.Named tag rawAttrs :=
  foldlM_invariant (p := Element.Named tag rawAttrs)
    (fun _ _ ha _ hel hstep => addAttr_named ha hel hstep) ⟨rfl, by simp, by simp⟩ h

theorem readText_in {c : Char} {s : Text} {r : Read (Dom F) s}
    (h : readText parseExpr c s = .ok r) : r.1.1.In (c :: s) := by
  obtain ⟨node, hnode, h⟩ := bind_eq_ok_iff.mp h
  cases h
  refine (compileText_in hnode).trans ?_
  exact (List.prefix_cons_inj c |>.mpr (List.takeWhile_prefix _)).isInfix

theorem readComment_in {s : Text} {r : Read (Dom F) s} (h : readComment s = .ok r) :
    r.1.1.In s := by
  unfold readComment at h
  split at h
  next => simp at h
  next body rest hcut =>
    cases h
    refine .intro ?_ (by simp [Dom.children])
    exact ⟨[], "-->".toList ++ rest, by rw [cutText_eq_some hcut]; simp⟩

theorem readDeclaration_in {s : Text} {r : Read (Dom F) s} (h : readDeclaration s = .ok r) :
    r.1.1.In ('<' :: s) := by
  unfold readDeclaration at h
  split at h
  next => simp at h
  next body rest hcut =>
    cases h
    refine .intro ?_ (by simp [Dom.children])
    exact ⟨[], rest, by rw [(cutAt_eq_some_iff.mp hcut).1]; simp⟩

theorem readRawChildren_in {name s : Text} {r : Read (List (Dom F)) s}
    (h : readRawChildren parseExpr name s = .ok r) : ∀ d ∈ r.1.1, d.In s := by
  obtain ⟨node, hnode, h⟩ := bind_eq_ok_iff.mp h
  cases h
  intro d hd
  cases List.mem_singleton.mp hd
  exact (compileText_in hnode).trans ⟨[], (readRawText name s).2, readRawText_append name s⟩

mutual

theorem parseNodes_in {s : Text} {r : Read (List (Dom F)) s}
    (h : parseNodes parseExpr s = .ok r) : ∀ d ∈ r.1.1, d.In s := by
  match s with
  | [] =>
    rw [parseNodes] at h
    cases h
    simp
  | c :: rest =>
    rw [parseNodes] at h
    split at h
    next =>
      cases h
      simp
    next =>
      obtain ⟨⟨⟨node, rest₁⟩, h₁⟩, hnode, h⟩ := bind_eq_ok_iff.mp h
      obtain ⟨⟨⟨nodes, rest₂⟩, h₂⟩, hnodes, h⟩ := bind_eq_ok_iff.mp h
      cases h
      intro d hd
      rcases List.mem_cons.mp hd with rfl | hd
      · exact readNode_in hnode
      · exact (parseNodes_in hnodes d hd).trans (h₁.trans (List.suffix_cons c rest)).isInfix
termination_by 3 * s.length
decreasing_by
  · simp only [List.length_cons]
    omega
  · have := h₁.length_le
    simp only [List.length_cons] at *
    omega

theorem readNode_in {c : Char} {s : Text} {r : Read (Dom F) s}
    (h : readNode parseExpr c s = .ok r) : r.1.1.In (c :: s) := by
  rw [readNode] at h
  split at h
  next => exact readText_in h
  next hc =>
    obtain rfl : c = '<' := not_not.mp hc
    split at h
    next =>
      cases hr : readComment (F := F) (s.drop 3) with
      | error e => simp [hr, Except.map] at h
      | ok r' =>
        simp only [hr, Except.map, Except.ok.injEq] at h
        subst h
        exact (readComment_in hr).trans
          ((List.drop_suffix 3 s).trans (List.suffix_cons '<' s)).isInfix
    next =>
      split at h
      next => exact readDeclaration_in h
      next => exact (readElement_in h).trans (List.suffix_cons '<' s).isInfix
termination_by 3 * s.length + 2

theorem readElement_in {s : Text} {r : Read (Dom F) s} (h : readElement parseExpr s = .ok r) :
    r.1.1.In s := by
  rw [readElement] at h
  dsimp only at h
  split at h
  next => simp at h
  next hname =>
    split at h
    next => simp at h
    next rawAttrs selfClosing rest hattrs =>
      obtain ⟨hrest, hnames⟩ := readAttrs_in hattrs
      obtain ⟨⟨⟨children, rest₁⟩, h₁⟩, hchildren, h⟩ := bind_eq_ok_iff.mp h
      obtain ⟨el, hel, h⟩ := bind_eq_ok_iff.mp h
      cases h
      obtain ⟨htag, hstatic, hdynamic⟩ := buildElement_named hel
      have hsuf := readName_suffix s
      have hattr : ∀ a ∈ rawAttrs, a.1 <:+: s := fun a ha =>
        ((hnames a ha).resolve_left (by simp)).trans hsuf.isInfix
      refine .intro ⟨htag ▸ readName_in s, fun a ha => ?_, fun a ha => ?_⟩ fun d hd => ?_
      · obtain ⟨r, hr, ha⟩ := hstatic a ha
        exact ha.trans (hattr r hr)
      · obtain ⟨r, hr, ha⟩ := hdynamic a ha
        exact ha.trans (hattr r hr)
      · have hin : d.In rest := by
          split at hchildren
          next =>
            cases hchildren
            simp [Dom.children] at hd
          next =>
            split at hchildren
            next => exact readRawChildren_in hchildren d hd
            next => exact parseNodes_in hchildren d hd
        exact hin.trans (hrest.trans hsuf).isInfix
termination_by 3 * s.length + 1
decreasing_by
  have := (hrest.trans hsuf).length_le
  omega

end

/-- The engines that `message` and `add` build, with the sources that their templates come from. A
hash map lists its entries in any order. -/
inductive Built (parseExpr : Text → Except TemplateError (Expr F)) : Kernleaf F → List Text → Prop
  | new : Built parseExpr {} []
  | message {engine : Kernleaf F} {sources : List Text} (key value : Text) :
    Built parseExpr engine sources → Built parseExpr (engine.message key value) sources
  | add {engine engine' : Kernleaf F} {sources : List Text} {name source : Text} :
    Built parseExpr engine sources → add parseExpr engine name source = .ok engine' →
    Built parseExpr engine' (source :: sources)
  | rehash {engine : Kernleaf F} {sources : List Text} {templates : Templates F} :
    Built parseExpr engine sources → templates.entries.Perm engine.templates.entries →
    Built parseExpr { engine with templates } sources

def InSources (sources : List Text) (t : Text) : Prop := ∃ source ∈ sources, t <:+: source

theorem Built.written {engine : Kernleaf F} {sources : List Text}
    (h : Built parseExpr engine sources) : ∀ e ∈ engine.templates.entries, ∀ d ∈ e.2,
      d.Every (Dom.Written (InSources sources)) := by
  induction h with
  | new => simp
  | message key value _ ih => exact ih
  | @add engine _ sources name source _ hadd ih =>
    obtain ⟨⟨⟨nodes, rest⟩, hrest⟩, hnodes, hadd⟩ := bind_eq_ok_iff.mp hadd
    cases hadd
    intro e he d hd
    rcases List.mem_cons.mp he with rfl | he
    · exact (parseNodes_in hnodes d hd).mono fun _ hw => hw.mono fun t ht =>
        ⟨source, List.mem_cons_self .., ht⟩
    · exact (ih e ((List.kerase_sublist name _).subset he) d hd).mono fun _ hw =>
        hw.mono fun _ ⟨src, hsrc, ht⟩ => ⟨src, List.mem_cons_of_mem source hsrc, ht⟩
  | rehash _ hperm ih => exact fun e he => ih e (hperm.mem_iff.mp he)

/-- A character of markup: a bracket, or a quote outside JavaScript and CSS escapes. -/
def Chunk.Markup (chunk : Chunk) (c : Char) : Prop :=
  IsBracket c ∨ IsQuote c ∧ chunk.origin ≠ .escaped .javaScript ∧ chunk.origin ≠ .escaped .css

/-- A part of the output that is text of a template, or markup that the engine writes. -/
def Chunk.Trusted (sources : List Text) (chunk : Chunk) : Prop :=
  (chunk.origin = .template ∧ InSources sources chunk.text) ∨
    (chunk.origin = .engine ∧ chunk.text ∈ engineMarkup)

theorem Chunk.From.trusted {sources : List Text} {chunk : Chunk}
    (h : chunk.From (InSources sources)) {c : Char} (hc : c ∈ chunk.text)
    (hm : chunk.Markup c) : chunk.Trusted sources := by
  obtain ⟨origin, text⟩ := chunk
  have hplain : ∀ (mode : InlineMode) {s : Text}, c ∈ escapeFor mode s →
      ¬ IsBracket c ∧ (mode ≠ .javaScript → ¬ IsQuote c) := fun _ => escapeFor_plain
  cases origin with
  | template =>
    rcases h with h | ⟨s, rfl⟩
    · exact .inl ⟨rfl, h⟩
    · obtain ⟨hbracket, hquote⟩ := hplain .html hc
      exact (hm.elim hbracket fun hq => hquote (by decide) hq.1).elim
  | engine => exact .inr ⟨rfl, h⟩
  | escaped mode =>
    obtain ⟨s, rfl⟩ := h
    obtain ⟨hbracket, hquote⟩ := hplain mode hc
    refine (hm.elim hbracket fun ⟨hq, hjs, _⟩ => hquote ?_ hq).elim
    rintro rfl
    exact hjs rfl
  | raw => exact h.elim

variable [StdLib F]

theorem renderChunks_from {engine : Kernleaf F} {sources : List Text}
    (hb : Built parseExpr engine sources) (he : engine.escapes) (template : Text)
    (model : Value F) (ctx : RenderContext) :
    From (InSources sources) (engine.renderChunks template model ctx) := by
  have ht : ∀ e ∈ engine.templates.entries, ∀ d ∈ e.2, d.Passes (InSources sources) := by
    intro e hmem d hd
    exact (hb.written e hmem d hd).and
      (every_escapesAll e.2 (List.all_eq_true.mp he e hmem) d hd)
  unfold renderChunks
  split
  next dom hdom =>
    exact renderNodes_from ht _ _ rfl dom (ht ⟨template, dom⟩ (AList.mem_lookup_iff.mp hdom)) _ _
  next => exact from_error _

/-- Every bracket, and every quote but one escaped for JavaScript or CSS, of a rendered page comes
from the text of a template or is markup of the engine, never from a value. -/
theorem markup_trusted {engine : Kernleaf F} {sources : List Text}
    (hb : Built parseExpr engine sources) (he : engine.escapes) {template : Text}
    {model : Value F} {ctx : RenderContext} {out : Text}
    (h : engine.renderWith template model ctx = .ok out) :
    ∃ chunks : Output, engine.renderChunks template model ctx = .ok chunks ∧ out = chunks.text ∧
      ∀ chunk ∈ chunks, ∀ c ∈ chunk.text, chunk.Markup c → chunk.Trusted sources := by
  unfold renderWith at h
  cases hr : engine.renderChunks template model ctx with
  | error e => simp [hr, Except.map] at h
  | ok chunks =>
    simp only [hr, Except.map, Except.ok.injEq] at h
    exact ⟨chunks, rfl, h.symm, fun chunk hchunk c hc hm =>
      (renderChunks_from hb he template model ctx chunks hr chunk hchunk).trusted hc hm⟩

/-- For templates in which no number occurs. -/
instance noNumbers : StdLib Unit where
  ofInt _ := ()
  ofNat _ := ()
  parse _ := none
  neg _ := ()
  abs _ := ()
  fract _ := ()
  add _ _ := ()
  sub _ _ := ()
  mul _ _ := ()
  div _ _ := ()
  rem _ _ := ()
  partialCmp _ _ := none
  isFinite _ := false
  toInt _ := 0
  toUsize _ := 0
  display _ := []
  displayFixed _ _ := []
  unicode := acuteCase
  toLowercase s := toAsciiLowercase s

/-- `[[x]]` of a value with a bracket. -/
theorem markup_trusted_text : ∃ engine : Kernleaf Unit,
    ∃ chunks : Output, engine.renderChunks [] (.map [(['x'], .str ['<'])]) {} = .ok chunks ∧
      "<p>&lt;</p>".toList = chunks.text ∧ ∀ chunk ∈ chunks, ∀ c ∈ chunk.text, chunk.Markup c →
        chunk.Trusted ["<p>[[x]]".toList] := by
  have hrun : (do
      let engine : Kernleaf Unit ← add (fun t => .ok (.var [t])) {} [] "<p>[[x]]".toList
      .ok (engine.escapes, ← engine.renderWith [] (.map [(['x'], .str ['<'])]) {})) =
      Except.ok (true, "<p>&lt;</p>".toList) := by decide +kernel
  obtain ⟨engine, hadd, hrun⟩ := bind_eq_ok_iff.mp hrun
  obtain ⟨out, hout, hrun⟩ := bind_eq_ok_iff.mp hrun
  obtain ⟨hescapes, rfl⟩ := Prod.mk.inj (Except.ok.inj hrun)
  exact ⟨engine, markup_trusted (.add .new hadd) hescapes hout⟩

/-- The engine writes quotes around an attribute that has none in the template. -/
theorem not_markup_in_sources : ¬ ∀ (F : Type) (_ : StdLib F)
    (parseExpr : Text → Except TemplateError (Expr F)) (engine : Kernleaf F) (sources : List Text),
    Built parseExpr engine sources → engine.escapes → ∀ template model ctx chunks,
      engine.renderChunks template model ctx = .ok chunks → ∀ chunk ∈ chunks, ∀ c ∈ chunk.text,
        chunk.Markup c → ∃ source ∈ sources, c ∈ source := by
  intro h
  have hrun : (do
      let engine : Kernleaf Unit ← add (fun t => .ok (.var [t])) {} [] "<a b=c>".toList
      .ok (engine.escapes, ← engine.renderChunks [] (.null : Value Unit) {})) =
      Except.ok (true, [engineChunk "<", ⟨.template, ['a']⟩, engineChunk " ", ⟨.template, ['b']⟩,
        engineChunk "=\"", ⟨.template, ['c']⟩, engineChunk "\"", engineChunk ">",
        engineChunk "</", ⟨.template, ['a']⟩, engineChunk ">"]) := by decide +kernel
  obtain ⟨engine, hadd, hrun⟩ := bind_eq_ok_iff.mp hrun
  obtain ⟨out, hout, hrun⟩ := bind_eq_ok_iff.mp hrun
  obtain ⟨hescapes, rfl⟩ := Prod.mk.inj (Except.ok.inj hrun)
  have hquote := h Unit noNumbers _ engine _ (.add .new hadd) hescapes _ _ _ _ hout
    (engineChunk "=\"") (by simp) '"' (by decide) (.inr ⟨by decide, by decide⟩)
  revert hquote
  decide

end Kernleaf

end Kernway
