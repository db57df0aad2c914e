import Kernway.KernleafCsrf

namespace Kernway.Kernleaf

section Lexemes

/-- What a template source consists of, read from its front with no regard to nesting. What no
reading function takes is `unread`. -/
inductive Lexeme
  | text (s : Text)
  | comment (body : Text)
  | declaration (s : Text)
  | startTag (name : Text) (attrs : List (Text × Text)) (void : Bool)
  | endTag
  | unread
  deriving DecidableEq

/-- A start tag, from after its `<`, with the text behind it where it opens a raw-text element. -/
def startLexemes (s : Text) : List Lexeme × Text :=
  let name := (readName s).1
  let tagLower := toAsciiLowercase name
  if name = [] then ([.unread], [])
  else match readAttrs [] (readName s).2 with
    | .error _ => ([.unread], [])
    | .ok (attrs, selfClosing, rest) =>
      if selfClosing || voidTags.contains tagLower then ([.startTag name attrs true], rest)
      else if rawTextTags.contains tagLower then
        ([.startTag name attrs false, .text (readRawText tagLower rest).1],
          (readRawText tagLower rest).2)
      else ([.startTag name attrs false], rest)

/-- The first lexemes of a text that is not empty, and what follows them. -/
def firstLexemes (c : Char) (s : Text) : List Lexeme × Text :=
  if c ≠ '<' then ([.text (c :: s.takeWhile (· ≠ '<'))], s.dropWhile (· ≠ '<'))
  else if s.head? = some '/' then ([.endTag], skipCloseTag (c :: s))
  else if "!--".toList.isPrefixOf s then
    match cutText "-->".toList (s.drop 3) with
    | none => ([.unread], [])
    | some (body, rest) => ([.comment body], rest)
  else if s.head? = some '!' then
    match cutAt '>' s with
    | none => ([.unread], [])
    | some (body, rest) => ([.declaration ('<' :: body ++ ['>'])], rest)
  else startLexemes s

theorem startLexemes_suffix (s : Text) : (startLexemes s).2 <:+ s := by
  unfold startLexemes
  dsimp only
  split
  next => exact List.nil_suffix
  next =>
    split
    next => exact List.nil_suffix
    next attrs selfClosing rest hattrs =>
      have hrest : rest <:+ s := (readAttrs_in hattrs).1.trans (readName_suffix s)
      split
      next => exact hrest
      next =>
        split
        next =>
          have hraw := readRawText_append (toAsciiLowercase (readName s).1) rest
          exact List.IsSuffix.trans ⟨_, hraw⟩ hrest
        next => exact hrest

theorem firstLexemes_suffix (c : Char) (s : Text) : (firstLexemes c s).2 <:+ s := by
  unfold firstLexemes
  split
  next => exact List.dropWhile_suffix _
  next hc =>
    split
    next hslash =>
      obtain ⟨t, rfl⟩ := List.head?_eq_some_iff.mp hslash
      rw [not_not.mp hc]
      have hws : skipWs (readName t).2 <:+ '/' :: t :=
        ((skipWs_suffix _).trans (readName_suffix t)).trans (List.suffix_cons '/' t)
      simp only [skipCloseTag]
      split
      next => exact (List.tail_suffix _).trans hws
      next => exact hws
    next =>
      split
      next =>
        split
        next => exact List.nil_suffix
        next body rest hcut =>
          have hrest : rest <:+ s.drop 3 := ⟨_, (cutText_eq_some hcut).symm⟩
          exact hrest.trans (List.drop_suffix 3 s)
      next =>
        split
        next =>
          split
          next => exact List.nil_suffix
          next body rest hcut =>
            refine ⟨body ++ ['>'], ?_⟩
            rw [(cutAt_eq_some_iff.mp hcut).1, List.append_assoc, List.singleton_append]
        next => exact startLexemes_suffix s

/-- The lexemes of a source. -/
@[semireducible] def scan : Text → List Lexeme
  | [] => []
  | c :: s => (firstLexemes c s).1 ++ scan (firstLexemes c s).2
termination_by s => s.length
decreasing_by
  have := (firstLexemes_suffix c s).length_le
  simp only [List.length_cons]
  omega

theorem scan_nil : scan [] = [] := by rw [scan]

theorem scan_cons (c : Char) (s : Text) :
    scan (c :: s) = (firstLexemes c s).1 ++ scan (firstLexemes c s).2 := by rw [scan]

/-- What stands behind the first end tag that closes nothing, where `depth` elements are open. -/
def behindStray : Nat → List Lexeme → List Lexeme
  | _, [] => []
  | 0, .endTag :: l => l
  | depth + 1, .endTag :: l => behindStray depth l
  | depth, .startTag _ _ false :: l => behindStray (depth + 1) l
  | depth, _ :: l => behindStray depth l

/-- A lexeme with no `th:` directive and no inline expression. -/
def Lexeme.plain : Lexeme → Bool
  | text s => !containsText s "[[".toList && !containsText s "[(".toList
  | startTag _ attrs _ => attrs.all fun a => ("th:".toList.isPrefixOf? a.1).isNone
  | _ => true

end Lexemes

section Emits

/-- The attributes with which a start tag is written: the namespace declaration is dropped. -/
def keptAttrs (attrs : List (Text × Text)) : List (Text × Text) :=
  attrs.filter (·.1 ≠ "xmlns:th".toList)

/-- What the output has of a lexeme. Nothing is asked for an end tag, and nothing is enough for what
is unread. -/
def Lexeme.piece : Lexeme → Option Output
  | text s => some [⟨.template, s⟩]
  | comment body => some [engineChunk "<!--", ⟨.template, body⟩, engineChunk "-->"]
  | declaration s => some [⟨.template, s⟩]
  | startTag name attrs _ =>
    some (Kernleaf.startTag name ((keptAttrs attrs).map fun a => (a.1, ⟨.template, escapeHtml a.2⟩)))
  | endTag => some []
  | unread => none

/-- Outputs that have the piece of every lexeme, in order, and between them only end tags and hidden
fields of forms. -/
inductive Emits : List Lexeme → Output → Prop
  | nil : Emits [] []
  | piece {x : Lexeme} {p out : Output} {l : List Lexeme} : x.piece = some p → Emits l out →
    Emits (x :: l) (p ++ out)
  | endTag (tag : Text) {out : Output} {l : List Lexeme} : Emits l out →
    Emits l (engineChunk "</" :: ⟨.template, tag⟩ :: engineChunk ">" :: out)
  | field (token : Text) {out : Output} {l : List Lexeme} : Emits l out →
    Emits l (csrfInput token ++ out)

variable {l l' : List Lexeme} {out out' : Output}

theorem Emits.append (h : Emits l out) (h' : Emits l' out') : Emits (l ++ l') (out ++ out') := by
  induction h with
  | nil => exact h'
  | piece hp _ ih =>
    rw [List.append_assoc]
    exact .piece hp ih
  | endTag tag _ ih => exact .endTag tag ih
  | field token _ ih =>
    rw [List.append_assoc]
    exact .field token ih

theorem Emits.append_endTags (h : Emits l out) (hl' : ∀ x ∈ l', x = .endTag) :
    Emits (l ++ l') out := by
  have hnothing : Emits l' [] := by
    induction l' with
    | nil => exact .nil
    | cons x l' ih =>
      obtain ⟨hx, hrest⟩ := List.forall_mem_cons.mp hl'
      have hpiece : x.piece = some [] := by
        rw [hx]
        rfl
      exact .piece hpiece (ih hrest)
  have happ := h.append hnothing
  rwa [List.append_nil] at happ

theorem Emits.read (h : Emits l out) : Lexeme.unread ∉ l := by
  induction h with
  | nil => simp
  | piece hp _ ih =>
    intro hmem
    rcases List.mem_cons.mp hmem with rfl | hmem
    · cases hp
    · exact ih hmem
  | endTag _ _ ih => exact ih
  | field _ _ ih => exact ih

/-- A weight for chunks by which everything that the engine writes of its own accord weighs nothing,
and every piece of the source one. -/
def Chunk.weight (c : Chunk) : Int :=
  if c.origin = .template then 1
  else if c = engineChunk " " then -2
  else if c = engineChunk "</" then -1
  else 0

def weight : Output → Int
  | [] => 0
  | c :: out => c.weight + weight out

def Lexeme.weight : Lexeme → Int
  | endTag | unread => 0
  | _ => 1

def weights : List Lexeme → Int
  | [] => 0
  | x :: l => x.weight + weights l

theorem weight_append (out out' : Output) : weight (out ++ out') = weight out + weight out' := by
  induction out with
  | nil => simp [weight]
  | cons c out ih =>
    simp only [List.cons_append, weight, ih]
    omega

theorem weights_append (l l' : List Lexeme) : weights (l ++ l') = weights l + weights l' := by
  induction l with
  | nil => simp [weights]
  | cons x l ih =>
    simp only [List.cons_append, weights, ih]
    omega

theorem Chunk.weight_template (s : Text) : Chunk.weight ⟨.template, s⟩ = 1 := rfl

theorem weight_renderAttr (name value : Text) :
    weight (renderAttr name ⟨.template, value⟩) = 0 := by
  have hspace : Chunk.weight (engineChunk " ") = -2 := by decide
  have hequals : Chunk.weight (engineChunk "=\"") = 0 := by decide
  have hquote : Chunk.weight (engineChunk "\"") = 0 := by decide
  simp only [renderAttr, weight, Chunk.weight_template, hspace, hequals, hquote]
  omega

theorem weight_startTag (name : Text) (attrs : List (Text × Text)) :
    weight (startTag name (attrs.map fun a => (a.1, ⟨.template, escapeHtml a.2⟩))) = 1 := by
  have hopen : Chunk.weight (engineChunk "<") = 0 := by decide
  have hclose : weight [engineChunk ">"] = 0 := by decide
  have hattrs : weight ((attrs.map fun a =>
      (a.1, (⟨.template, escapeHtml a.2⟩ : Chunk))).flatMap fun a => renderAttr a.1 a.2) = 0 := by
    induction attrs with
    | nil => rfl
    | cons a attrs ih =>
      rw [List.map_cons, List.flatMap_cons, weight_append, weight_renderAttr, ih]
      rfl
  rw [startTag, weight_append, hclose, weight, weight, hattrs, hopen, Chunk.weight_template]
  rfl

theorem Lexeme.weight_piece {x : Lexeme} {p : Output} (h : x.piece = some p) :
    Kernleaf.weight p = x.weight := by
  cases x with
  | text s | declaration s =>
    cases h
    rfl
  | comment body =>
    cases h
    have hopen : Chunk.weight (engineChunk "<!--") = 0 := by decide
    have hclose : Chunk.weight (engineChunk "-->") = 0 := by decide
    simp only [Kernleaf.weight, Lexeme.weight, Chunk.weight_template, hopen, hclose]
    omega
  | startTag name attrs void =>
    cases h
    exact weight_startTag name _
  | endTag =>
    cases h
    rfl
  | unread => cases h

theorem Emits.weight_eq (h : Emits l out) : weight out = weights l := by
  induction h with
  | nil => rfl
  | piece hp _ ih => rw [weight_append, Lexeme.weight_piece hp, ih, weights]
  | endTag tag _ ih =>
    have hopen : Chunk.weight (engineChunk "</") = -1 := by decide
    have hclose : Chunk.weight (engineChunk ">") = 0 := by decide
    simp only [weight, Chunk.weight_template, hopen, hclose, ih]
    omega
  | field token _ ih =>
    have hchunk : Chunk.weight ⟨.escaped .html, escapeHtml token⟩ = 0 := by
      simp [Chunk.weight, engineChunk]
    have hopen : Chunk.weight fieldOpening = 0 := by decide
    have hname : Chunk.weight ⟨.engine, csrfField⟩ = 0 := by decide
    have hvalue : Chunk.weight (engineChunk "\" value=\"") = 0 := by decide
    have hclose : Chunk.weight (engineChunk "\">") = 0 := by decide
    simp only [csrfInput, weight_append, weight, hchunk, hopen, hname, hvalue, hclose, ih]
    omega

/-- What an output has in full and what it lacks cannot both be lexemes with a piece. -/
theorem Emits.eq_endTag (h : Emits l out) (h' : Emits (l ++ l') out) :
    ∀ x ∈ l', x = .endTag := by
  have hweights := h'.weight_eq
  rw [weights_append, h.weight_eq] at hweights
  have hzero : weights l' = 0 := by omega
  have hread : Lexeme.unread ∉ l' := fun hmem => h'.read (List.mem_append_right l hmem)
  have hnonneg : ∀ l : List Lexeme, 0 ≤ weights l := by
    intro l
    induction l with
    | nil => exact Int.le_refl 0
    | cons x l ih =>
      have hx : 0 ≤ x.weight := by cases x <;> simp [Lexeme.weight]
      simp only [weights]
      omega
  clear h h' hweights
  induction l' with
  | nil => simp
  | cons x l' ih =>
    have hl' := hnonneg l'
    simp only [weights] at hzero
    rw [List.mem_cons, not_or] at hread
    have hx : x = .endTag := by
      cases x with
      | endTag => rfl
      | unread => exact absurd rfl hread.1
      | _ =>
        simp only [Lexeme.weight] at hzero
        omega
    subst hx
    simp only [Lexeme.weight] at hzero
    exact List.forall_mem_cons.mpr ⟨rfl, ih (by omega) hread.2⟩

end Emits

end Kernway.Kernleaf
