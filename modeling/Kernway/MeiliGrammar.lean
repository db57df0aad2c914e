import Kernway.OrmSpec

namespace Kernway

/-- What the filter grammar of Meilisearch leaves open here: the characters of a word beside the
letters, the words that are kept, and whether a backslash before another character than the quote
stays in a string. -/
structure MeiliGrammar where
  wordChar : Char → Bool
  reserved : Text → Bool
  keeps : Bool
  letter : ∀ c : Char, c.isAlpha → wordChar c
  delimiter : ∀ c ∈ [' ', '\t', '\r', '\n', '(', ')', '[', ']', ',', '=', '!', '<', '>', '"', '\'',
    '\\'], wordChar c = false
  connective : ∀ w ∈ ["AND".toList, "OR".toList, "NOT".toList, "IN".toList, "TO".toList],
    reserved w

namespace MeiliGrammar

def isSpace (c : Char) : Bool := c = ' ' || c = '\t' || c = '\r' || c = '\n'

def skipWs (s : Text) : Text := s.dropWhile isSpace

/-- What a backslash and a character stand for in a string between quotes `q`. -/
def unescape (keeps : Bool) (q c : Char) : Text :=
  if c = q then [q] else if keeps then ['\\', c] else [c]

/-- A string behind its opening quote, and what follows the closing one. -/
def readQuoted (keeps : Bool) (q : Char) : Text → Option (Text × Text)
  | [] => none
  | '\\' :: [] => none
  | '\\' :: c :: rest =>
    (readQuoted keeps q rest).map fun (v, rest) => (unescape keeps q c ++ v, rest)
  | c :: rest =>
    if c = q then some ([], rest)
    else (readQuoted keeps q rest).map fun (v, rest) => (c :: v, rest)

variable (g : MeiliGrammar)

/-- A word that is not kept. -/
def readWord (s : Text) : Option (Text × Text) :=
  if s.takeWhile g.wordChar = [] ∨ g.reserved (s.takeWhile g.wordChar) then none
  else some (s.takeWhile g.wordChar, s.dropWhile g.wordChar)

/-- `value`: a word or a string. -/
def readValue (s : Text) : Option (Text × Text) :=
  match skipWs s with
  | '"' :: rest => readQuoted g.keeps '"' rest
  | '\'' :: rest => readQuoted g.keeps '\'' rest
  | s => g.readWord s

def keyword (w : Text) (s : Text) : Option Text :=
  if (skipWs s).takeWhile g.wordChar = w then some ((skipWs s).dropWhile g.wordChar) else none

def symbol (c : Char) (s : Text) : Option Text :=
  match skipWs s with
  | d :: rest => if d = c then some rest else none
  | [] => none

def readOp : Text → Option (CompareOp × Text)
  | '!' :: '=' :: rest => some (.ne, rest)
  | '>' :: '=' :: rest => some (.gte, rest)
  | '<' :: '=' :: rest => some (.lte, rest)
  | '=' :: rest => some (.eq, rest)
  | '>' :: rest => some (.gt, rest)
  | '<' :: rest => some (.lt, rest)
  | _ => none

/-- The values of a list up to its bracket; a comma may stand behind the last. -/
def readList : Nat → Text → Option (List Text × Text)
  | 0, _ => none
  | n + 1, s =>
    match symbol ']' s with
    | some rest => some ([], rest)
    | none => do
      let (v, rest) ← g.readValue s
      match symbol ',' rest with
      | some rest => do
        let (vs, rest) ← readList n rest
        return (v :: vs, rest)
      | none => do
        let rest ← symbol ']' rest
        return ([v], rest)

def compareLeaf (s : Text) : Option (Spec × Text) := do
  let (field, s) ← g.readValue s
  let (op, s) ← readOp (skipWs s)
  let (value, s) ← g.readValue s
  return (.compare op field value, s)

def inLeaf (s : Text) : Option (Spec × Text) := do
  let (field, s) ← g.readValue s
  let s ← g.keyword "IN".toList s
  let s ← symbol '[' s
  let (values, s) ← g.readList (s.length + 1) s
  return (.in_ field values, s)

def containsLeaf (s : Text) : Option (Spec × Text) := do
  let (field, s) ← g.readValue s
  let s ← g.keyword "CONTAINS".toList s
  let (value, s) ← g.readValue s
  return (.like field value, s)

def nullLeaf (s : Text) : Option (Spec × Text) := do
  let (field, s) ← g.readValue s
  let s ← g.keyword "IS".toList s
  let s ← g.keyword "NULL".toList s
  return (.isNull field, s)

def notNullLeaf (s : Text) : Option (Spec × Text) := do
  let (field, s) ← g.readValue s
  let s ← g.keyword "IS".toList s
  let s ← g.keyword "NOT".toList s
  let s ← g.keyword "NULL".toList s
  return (.isNotNull field, s)

def rangeLeaf (s : Text) : Option (Spec × Text) := do
  let (field, s) ← g.readValue s
  let (lo, s) ← g.readValue s
  let s ← g.keyword "TO".toList s
  let (hi, s) ← g.readValue s
  return (.between field lo hi, s)

/-- A condition of the kinds that predicates have. -/
def leaf (s : Text) : Option (Spec × Text) :=
  (g.compareLeaf s).or ((g.inLeaf s).or ((g.containsLeaf s).or ((g.nullLeaf s).or
    ((g.notNullLeaf s).or (g.rangeLeaf s)))))

inductive Level
  | or
  | and
  | not
  | primary

/-- An expression: `OR` binds weaker than `AND`, and that weaker than `NOT`. -/
def parseAt : Nat → Level → Text → Option (Spec × Text)
  | 0, _, _ => none
  | n + 1, .or, s => do
    let (a, s) ← parseAt n .and s
    match g.keyword "OR".toList s with
    | none => return (a, s)
    | some s => do
      let (b, s) ← parseAt n .or s
      return (.or a b, s)
  | n + 1, .and, s => do
    let (a, s) ← parseAt n .not s
    match g.keyword "AND".toList s with
    | none => return (a, s)
    | some s => do
      let (b, s) ← parseAt n .and s
      return (.and a b, s)
  | n + 1, .not, s =>
    match g.keyword "NOT".toList s with
    | none => parseAt n .primary s
    | some s => do
      let (a, s) ← parseAt n .not s
      return (.not a, s)
  | n + 1, .primary, s =>
    match symbol '(' s with
    | none => g.leaf s
    | some s => do
      let (a, s) ← parseAt n .or s
      let s ← symbol ')' s
      return (a, s)

/-- `filter`: an expression and nothing behind it. -/
def parse (s : Text) : Option Spec := do
  let (a, rest) ← g.parseAt (8 * s.length + 8) .or s
  if skipWs rest = [] then some a else none

end MeiliGrammar

end Kernway
