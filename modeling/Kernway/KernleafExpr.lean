import Kernway.Table
import Kernway.UnicodeCase

namespace Kernway.Kernleaf

/-- What the template engine takes from the standard library: `f64` and the Unicode tables. -/
class StdLib (F : Type) where
  ofInt : Int64 → F
  ofNat : Nat → F
  parse : Text → Option F
  neg : F → F
  abs : F → F
  fract : F → F
  add : F → F → F
  sub : F → F → F
  mul : F → F → F
  div : F → F → F
  rem : F → F → F
  partialCmp : F → F → Option Ordering
  isFinite : F → Bool
  toInt : F → Int64
  toUsize : F → Nat
  display : F → Text
  displayFixed : Nat → F → Text
  unicode : UnicodeCase
  toLowercase : Text → Text

inductive Value (F : Type)
  | null
  | bool (b : Bool)
  | int (n : Int64)
  | float (x : F)
  | str (s : Text)
  | seq (items : List (Value F))
  | map (fields : List (Text × Value F))

/-- What `th:authorize` asks of the request's principal. -/
structure Authorization where
  isAuthenticated : Bool
  hasRole : Text → Bool
  hasAuthority : Text → Bool

def anonymous : Authorization := ⟨false, fun _ => false, fun _ => false⟩

inductive UnOp
  | neg
  | not

inductive BinOp
  | or
  | and
  | eq
  | ne
  | gt
  | lt
  | ge
  | le
  | add
  | sub
  | mul
  | div
  | rem

inductive Expr (F : Type)
  | var (path : List Text)
  | str (s : Text)
  | num (n : F)
  | bool (b : Bool)
  | null
  | template (parts : List (Expr F))
  | url (base : Text) (params : List (Text × Expr F))
  | msg (key : Text) (args : List (Expr F))
  | util (object method : Text) (args : List (Expr F))
  | unary (op : UnOp) (x : Expr F)
  | binary (op : BinOp) (l r : Expr F)
  | ternary (c a b : Expr F)
  | elvis (a b : Expr F)

inductive EvalVal (F : Type)
  | ref (v : Value F)
  | str (s : Text)
  | num (n : F)
  | bool (b : Bool)
  | null

structure Env (F : Type) where
  model : Value F
  messages : Table Text Text
  contextPath : Text
  authz : Authorization
  csrf : Option Text

/-- The loop variables, innermost first. -/
abbrev Scope (F : Type) := List (Text × Value F)

section Texts

def digitsOf (n : Nat) : Text := Nat.toDigits 10 n

def intText (n : Int64) : Text :=
  if n.toInt < 0 then '-' :: digitsOf n.toInt.natAbs else digitsOf n.toInt.natAbs

/-- A number in upper-case hexadecimal, as `{:X}` writes it. -/
def hexUpper (n : Nat) : Text := (Nat.toDigits 16 n).map Char.toUpper

/-- `str::replace` of a pattern that is not empty. -/
@[semireducible] def replaceText (pat new s : Text) : Text :=
  match s with
  | [] => []
  | c :: s =>
    if pat.isPrefixOf (c :: s) then new ++ replaceText pat new (s.drop (pat.length - 1))
    else c :: replaceText pat new s
termination_by s.length
decreasing_by all_goals simp only [List.length_drop, List.length_cons]; omega

def isUnreserved (b : UInt8) : Bool :=
  let n := b.toNat
  ('A'.toNat ≤ n && n ≤ 'Z'.toNat) || ('a'.toNat ≤ n && n ≤ 'z'.toNat) ||
    ('0'.toNat ≤ n && n ≤ '9'.toNat) || n == '-'.toNat || n == '_'.toNat || n == '.'.toNat ||
    n == '~'.toNat

/-- The text of one byte in a URL component: itself, or `%` and two hexadecimal digits. -/
def urlByte (b : UInt8) : Text :=
  if isUnreserved b then [Char.ofNat b.toNat]
  else '%' :: (hexUpper (b.toNat / 16) ++ hexUpper (b.toNat % 16))

def urlEncode (s : Text) : Text := (encodeUtf8 s).flatMap urlByte

end Texts

variable {F : Type}

/-- `Value::get`: the last field of that name. -/
def Value.get (v : Value F) (key : Text) : Option (Value F) :=
  match v with
  | map fields => (fields.reverse.find? fun p => p.1 = key).map Prod.snd
  | _ => none

/-- `resolve`: a dotted path, from the innermost loop variable of its name or from the model. -/
def resolve (path : List Text) (model : Value F) (scope : Scope F) : Option (Value F) :=
  match path with
  | [] => none
  | head :: tail =>
    let base := ((scope.find? fun p => p.1 = head).map Prod.snd).or (model.get head)
    base.bind fun base => tail.foldlM (fun cur seg => cur.get seg) base

variable [StdLib F]

def f64Eq (a b : F) : Bool := StdLib.partialCmp a b == some .eq

def Value.isTruthy : Value F → Bool
  | null => false
  | bool b => b
  | int n => n != 0
  | float x => !f64Eq x (StdLib.ofNat 0)
  | str s => s != []
  | seq items => !items.isEmpty
  | map fields => !fields.isEmpty

/-- `write_num`: a whole number below `1e15` without a fraction, others as `f64` displays. -/
def numText (n : F) : Text :=
  if StdLib.isFinite n && f64Eq (StdLib.fract n) (StdLib.ofNat 0) &&
      StdLib.partialCmp (StdLib.abs n) (StdLib.ofNat (10 ^ 15) : F) == some .lt then
    intText (StdLib.toInt n)
  else StdLib.display n

def boolText (b : Bool) : Text := if b then "true".toList else "false".toList

/-- `value_to_string`. -/
def Value.text : Value F → Text
  | null | seq _ | map _ => []
  | bool b => boolText b
  | int n => intText n
  | float x => numText x
  | str s => s

namespace EvalVal

def toBool : EvalVal F → Bool
  | ref v => v.isTruthy
  | str s => s != []
  | num n => !f64Eq n (StdLib.ofNat 0)
  | bool b => b
  | null => false

def asSeq : EvalVal F → Option (List (Value F))
  | ref (.seq items) => some items
  | _ => none

/-- `write_string`, not escaped. -/
def text : EvalVal F → Text
  | ref v => v.text
  | str s => s
  | bool b => boolText b
  | num n => numText n
  | null => []

def asNum : EvalVal F → Option F
  | num n => some n
  | bool b => some (if b then StdLib.ofNat 1 else StdLib.ofNat 0)
  | ref (.int n) => some (StdLib.ofInt n)
  | ref (.float x) => some x
  | ref (.str s) | str s => StdLib.parse (trim s)
  | _ => none

def isNull : EvalVal F → Bool
  | null | ref .null => true
  | _ => false

end EvalVal

def valuesEqual (l r : EvalVal F) : Bool :=
  if l.isNull || r.isNull then l.isNull && r.isNull
  else match l.asNum, r.asNum with
    | some a, some b => f64Eq a b
    | _, _ => l.text == r.text

/-- The order of two values: as numbers where both are, else as texts. -/
def valuesCmp (l r : EvalVal F) : Option Ordering :=
  match l.asNum, r.asNum with
  | some a, some b => StdLib.partialCmp a b
  | _, _ => some (compare (encodeUtf8 l.text) (encodeUtf8 r.text))

/-- An arithmetic operation, what is no number counting as zero. -/
def arith (f : F → F → F) (l r : EvalVal F) : EvalVal F :=
  .num (f (l.asNum.getD (StdLib.ofNat 0)) (r.asNum.getD (StdLib.ofNat 0)))

def evalBinary (op : BinOp) (l r : EvalVal F) : EvalVal F :=
  match op with
  | .or => .bool (l.toBool || r.toBool)
  | .and => .bool (l.toBool && r.toBool)
  | .eq => .bool (valuesEqual l r)
  | .ne => .bool (!valuesEqual l r)
  | .gt => .bool ((valuesCmp l r).any (· == .gt))
  | .lt => .bool ((valuesCmp l r).any (· == .lt))
  | .ge => .bool ((valuesCmp l r).any (· != .lt))
  | .le => .bool ((valuesCmp l r).any (· != .gt))
  | .add => match l.asNum, r.asNum with
    | some a, some b => .num (StdLib.add a b)
    | _, _ => .str (l.text ++ r.text)
  | .sub => arith StdLib.sub l r
  | .mul => arith StdLib.mul l r
  | .div => arith StdLib.div l r
  | .rem => arith StdLib.rem l r

def formatDecimal (n : F) (minInt decimals : Nat) : Text :=
  let sign := if StdLib.partialCmp n (StdLib.ofNat 0 : F) == some .lt then ['-'] else []
  let s := StdLib.displayFixed decimals (StdLib.abs n)
  let (intPart, fracPart) := match cutAt '.' s with
    | some (i, f) => (i, some f)
    | none => (s, none)
  let padded := List.replicate (minInt - (encodeUtf8 intPart).length) '0' ++ intPart
  match fracPart with
  | some f => sign ++ padded ++ '.' :: f
  | none => sign ++ padded

def capitalize (F : Type) [StdLib F] : Text → Text
  | [] => []
  | c :: s => (StdLib.unicode F).upper c ++ s

/-- `eval_util`: an unknown method is null. -/
def evalUtil (object method : Text) (args : List (EvalVal F)) : EvalVal F :=
  let text (i : Nat) : Text := (args[i]?.map EvalVal.text).getD []
  let num (i : Nat) : F := (args[i]?.bind EvalVal.asNum).getD (StdLib.ofNat 0)
  let minInt := StdLib.toUsize ((args[1]?.bind EvalVal.asNum).getD (StdLib.ofNat 1))
  let seq := args.head?.bind EvalVal.asSeq
  match String.ofList object, String.ofList method with
  | "strings", "toUpperCase" => .str (toUppercase (StdLib.unicode F) (text 0))
  | "strings", "toLowerCase" => .str (StdLib.toLowercase F (text 0))
  | "strings", "trim" => .str (trim (text 0))
  | "strings", "length" => .num (StdLib.ofNat (text 0).length)
  | "strings", "isEmpty" => .bool (text 0).isEmpty
  | "strings", "contains" => .bool (containsText (text 0) (text 1))
  | "strings", "capitalize" => .str (capitalize F (text 0))
  | "strings", "defaultString" => .str (if (text 0).isEmpty then text 1 else text 0)
  | "numbers", "abs" => .num (StdLib.abs (num 0))
  | "numbers", "formatInteger" => .str (formatDecimal (num 0) minInt 0)
  | "numbers", "formatDecimal" => .str (formatDecimal (num 0) minInt (StdLib.toUsize (num 2)))
  | "lists", "size" => .num (StdLib.ofNat ((seq.map List.length).getD 0))
  | "lists", "isEmpty" => .bool ((seq.map List.isEmpty).getD true)
  | "lists", "contains" => .bool ((seq.map fun xs => xs.any fun v => v.text == text 1).getD false)
  | "bools", "isTrue" => .bool ((args.head?.map EvalVal.toBool).getD false)
  | _, _ => .null

/-- A name in braces, as it stands in a URL or a message for a value. -/
def placeholder (name : Text) : Text := '{' :: name ++ ['}']

/-- The parameters of a URL: a path variable replaced in `url`, or else added to `query`. -/
def urlParams (url : Text) (query : List (Text × Text)) :
    List (Text × Text) → Text × List (Text × Text)
  | [] => (url, query)
  | (name, value) :: params =>
    if containsText url (placeholder name) then
      urlParams (replaceText (placeholder name) (urlEncode value) url) query params
    else urlParams url (query ++ [(name, value)]) params

/-- `eval_url` of evaluated parameters. -/
def evalUrl (base : Text) (params : List (Text × Text)) (contextPath : Text) : Text :=
  let (url, query) := urlParams base [] params
  let pairs := query.map fun p => urlEncode p.1 ++ '=' :: urlEncode p.2
  contextPath ++ if query.isEmpty then url else url ++ '?' :: ['&'].intercalate pairs

/-- Arguments put in the places of a message, from the one numbered `i` on. -/
def fillArgs (message : Text) (i : Nat) : List Text → Text
  | [] => message
  | arg :: args => fillArgs (replaceText (placeholder (digitsOf i)) arg message) (i + 1) args

/-- `eval_msg` of evaluated arguments. -/
def evalMsg (key : Text) (args : List Text) (messages : Table Text Text) : Text :=
  match messages.lookup key with
  | some message => fillArgs message 0 args
  | none => "??".toList ++ key ++ "??".toList

mutual

def eval (env : Env F) (scope : Scope F) : Expr F → EvalVal F
  | .var path => ((resolve path env.model scope).map EvalVal.ref).getD .null
  | .str s => .str s
  | .num n => .num n
  | .bool b => .bool b
  | .null => .null
  | .template parts => .str ((evalAll env scope parts).flatMap EvalVal.text)
  | .url base params => .str (evalUrl base (evalParams env scope params) env.contextPath)
  | .msg key args =>
    .str (evalMsg key ((evalAll env scope args).map EvalVal.text) env.messages)
  | .util object method args => evalUtil object method (evalAll env scope args)
  | .unary .not x => .bool (!(eval env scope x).toBool)
  | .unary .neg x => .num (StdLib.neg ((eval env scope x).asNum.getD (StdLib.ofNat 0)))
  | .binary op l r => evalBinary op (eval env scope l) (eval env scope r)
  | .ternary c a b => if (eval env scope c).toBool then eval env scope a else eval env scope b
  | .elvis a b => if (eval env scope a).toBool then eval env scope a else eval env scope b

def evalAll (env : Env F) (scope : Scope F) : List (Expr F) → List (EvalVal F)
  | [] => []
  | e :: es => eval env scope e :: evalAll env scope es

def evalParams (env : Env F) (scope : Scope F) : List (Text × Expr F) → List (Text × Text)
  | [] => []
  | (name, e) :: params => (name, (eval env scope e).text) :: evalParams env scope params

end

end Kernway.Kernleaf
