import Kernway.Fields
import Kernway.KernleafTaken
import Kernway.StrSlice
import Kernway.Utf8Lossy

namespace Kernway.Kernleaf

section Bytes

/-- What ends a reading without a result: an index that panics, a bound on the steps, or an error of
the template. -/
inductive Halt
  | fault (f : SliceFault)
  | outOfSteps
  | error (e : TemplateError)
  deriving DecidableEq

abbrev Reading (α : Type) := Except Halt α

def ofTemplate {α : Type} (res : Except TemplateError α) : Reading α := res.mapError .error

def sliceAt (s : Text) (i j : Nat) : Reading Text := (strSlice s i j).mapError .fault

def isAsciiWhitespaceByte (b : UInt8) : Bool :=
  b = byteOf ' ' || b = byteOf '\t' || b = byteOf '\n' || b.toNat = 12 || b = byteOf '\r'

/-- `str::find` of a text, as a byte index. -/
def findStr (needle s : Text) : Option Nat :=
  (cutText needle s).map fun cut => (encodeUtf8 cut.1).length

variable (src : Text)

/-- `self.s[pos]`, where it is not past the end. -/
def byteAt (pos : Nat) : Option UInt8 := (encodeUtf8 src)[pos]?

def isEof (pos : Nat) : Bool := (encodeUtf8 src).length ≤ pos

def startsWithAt (pos : Nat) (pat : String) : Reading Bool := do
  let rest ← sliceAt src pos (encodeUtf8 src).length
  .ok (pat.toList.isPrefixOf rest)

def readNameAt (pos : Nat) : Reading (Text × Nat) := do
  let stop := scanWhile (fun b => !(isAsciiWhitespaceByte b || b = byteOf '>' || b = byteOf '/' ||
    b = byteOf '=')) src pos
  let name ← sliceAt src pos stop
  .ok (name, stop)

def skipWsAt (pos : Nat) : Nat := scanWhile isAsciiWhitespaceByte src pos

def readAttrValueAt (pos : Nat) : Reading (Text × Nat) :=
  match byteAt src pos with
  | none => .ok ([], pos)
  | some quote =>
    if quote = byteOf '"' ∨ quote = byteOf '\'' then do
      let stop := scanWhile (fun b => !(b = quote)) src (pos + 1)
      let value ← sliceAt src (pos + 1) stop
      .ok (value, if isEof src stop then stop else stop + 1)
    else do
      let stop := scanWhile (fun b => !(isAsciiWhitespaceByte b || b = byteOf '>' ||
        b = byteOf '/')) src pos
      let value ← sliceAt src pos stop
      .ok (value, stop)

def readAttrsAt : Nat → List (Text × Text) → Nat → Reading ((List (Text × Text) × Bool) × Nat)
  | 0, _, _ => .error .outOfSteps
  | steps + 1, attrs, pos =>
    let pos := skipWsAt src pos
    if isEof src pos then .error (.error "unterminated tag".toList)
    else if byteAt src pos = some (byteOf '>') then .ok ((attrs, false), pos + 1)
    else do
      if ← startsWithAt src pos "/>" then .ok ((attrs, true), pos + 2)
      else
        let (name, after) ← readNameAt src pos
        if name = [] then readAttrsAt steps attrs (pos + 1)
        else
          let after := skipWsAt src after
          if byteAt src after = some (byteOf '=') then
            let (value, pos) ← readAttrValueAt src (skipWsAt src (after + 1))
            readAttrsAt steps (attrs ++ [(name, value)]) pos
          else readAttrsAt steps (attrs ++ [(name, [])]) after

/-- A close tag of the name at the front of the bytes. -/
def closesRaw (needle b : Bytes) : Bool :=
  b.head? = some (byteOf '<') && 2 + needle.length ≤ b.length && b[1]? = some (byteOf '/') &&
    ((b.drop 2).take needle.length).map asciiLowerByte == needle.map asciiLowerByte &&
    (b.drop (2 + needle.length)).head?.all fun b => b = byteOf '>' || isAsciiWhitespaceByte b

/-- How far the loop of `read_raw_text` gets. -/
def rawLength (needle : Bytes) : Bytes → Nat
  | [] => 0
  | b :: bs => if closesRaw needle (b :: bs) then 0 else rawLength needle bs + 1

def closeTagAt (pos : Nat) : Reading Nat := do
  if ← startsWithAt src pos "</" then
    let (_, after) ← readNameAt src (pos + 2)
    let after := skipWsAt src after
    .ok (if byteAt src after = some (byteOf '>') then after + 1 else after)
  else .ok pos

variable {F : Type} (parseExpr : Text → Except TemplateError (Expr F))

/-- The next inline expression, by the byte index of its opening. -/
def nextInlineAt (rest : Text) : Option (Nat × Bool) :=
  match findStr "[[".toList rest, findStr "[(".toList rest with
  | some a, some b => if a < b then some (a, true) else some (b, false)
  | some a, none => some (a, true)
  | none, some b => some (b, false)
  | none, none => none

def compilePartsAt : Nat → Text → Reading (List (InlinePart F))
  | 0, _ => .error .outOfSteps
  | steps + 1, rest =>
    match nextInlineAt rest with
    | none => .ok (if rest = [] then [] else [.lit rest])
    | some (pos, isEscaped) => do
      let before ← sliceAt rest 0 pos
      let after ← sliceAt rest (pos + 2) (encodeUtf8 rest).length
      match findStr (inlineClose isEscaped) after with
      | none => .error (.error (unclosedInline isEscaped))
      | some stop =>
        let inner ← sliceAt after 0 stop
        let e ← ofTemplate (parseExpr (trim inner))
        let rest ← sliceAt after (stop + 2) (encodeUtf8 after).length
        let parts ← compilePartsAt steps rest
        .ok ((if pos = 0 then [] else [.lit before]) ++
          (if isEscaped then .escaped e else .raw e) :: parts)

def compileTextAt (steps : Nat) (raw : Text) : Reading (Dom F) :=
  if !containsText raw "[[".toList && !containsText raw "[(".toList then .ok (.text raw)
  else (compilePartsAt parseExpr steps raw).map .inline

def readTextAt (steps pos : Nat) : Reading (Dom F × Nat) := do
  let stop := scanWhile (fun b => !(b = byteOf '<')) src pos
  let raw ← sliceAt src pos stop
  let node ← compileTextAt parseExpr steps raw
  .ok (node, stop)

def readRawTextAt (steps : Nat) (tagLower : Text) (pos : Nat) : Reading (Dom F × Nat) := do
  let stop := pos + rawLength (encodeUtf8 tagLower) ((encodeUtf8 src).drop pos)
  let raw ← sliceAt src pos stop
  let node ← compileTextAt parseExpr steps raw
  .ok (node, stop)

def readCommentAt (pos : Nat) : Reading (Dom F × Nat) := do
  let rest ← sliceAt src (pos + 4) (encodeUtf8 src).length
  match findStr "-->".toList rest with
  | none => .error (.error "unterminated comment".toList)
  | some stop =>
    let body ← sliceAt src (pos + 4) (pos + 4 + stop)
    .ok (.comment body, pos + 4 + stop + 3)

def readDeclarationAt (pos : Nat) : Reading (Dom F × Nat) := do
  let rest ← sliceAt src pos (encodeUtf8 src).length
  match findStr [ '>'] rest with
  | none => .error (.error "unterminated `<!…>`".toList)
  | some stop =>
    let text ← sliceAt src pos (pos + stop + 1)
    .ok (.declaration text, pos + stop + 1)

mutual

/-- `parse_nodes` with its indices into the bytes of the source, in at most so many steps. -/
def parseNodesAt : Nat → Nat → Reading (List (Dom F) × Nat)
  | 0, _ => .error .outOfSteps
  | steps + 1, pos =>
    if isEof src pos then .ok ([], pos)
    else do
      if ← startsWithAt src pos "</" then .ok ([], pos)
      else
        let (node, pos₁) ← readNodeAt steps pos
        let (nodes, pos₂) ← parseNodesAt steps pos₁
        .ok (node :: nodes, pos₂)

def readNodeAt : Nat → Nat → Reading (Dom F × Nat)
  | 0, _ => .error .outOfSteps
  | steps + 1, pos =>
    if byteAt src pos = some (byteOf '<') then do
      if ← startsWithAt src pos "<!--" then readCommentAt src pos
      else if ← startsWithAt src pos "<!" then readDeclarationAt src pos
      else readElementAt steps pos
    else readTextAt src parseExpr steps pos

def readElementAt : Nat → Nat → Reading (Dom F × Nat)
  | 0, _ => .error .outOfSteps
  | steps + 1, pos => do
    let (tag, pos₁) ← readNameAt src (pos + 1)
    if tag = [] then .error (.error "`<` without a tag name".toList)
    else
      let tagLower := toAsciiLowercase tag
      let ((rawAttrs, selfClosing), pos₂) ← readAttrsAt src steps [] pos₁
      let void := selfClosing || voidTags.contains tagLower
      let (children, pos₃) ←
        if void then .ok ([], pos₂)
        else if rawTextTags.contains tagLower then do
          let (node, stop) ← readRawTextAt src parseExpr steps tagLower pos₂
          .ok ([node], stop)
        else parseNodesAt steps pos₂
      let pos₄ ← if void then .ok pos₃ else closeTagAt src pos₃
      let el ← ofTemplate (buildElement parseExpr tag void rawAttrs)
      .ok (.element el children, pos₄)

end

/-- `Kernleaf::add` over the bytes of its source. -/
def addAt (steps : Nat) (engine : Kernleaf F) (name source : Text) : Reading (Kernleaf F) := do
  let dom ← parseNodesAt source parseExpr steps 0
  .ok { engine with templates := engine.templates.insert name dom.1 }

end Bytes

end Kernway.Kernleaf
