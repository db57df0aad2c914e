import Kernway.Str
import Mathlib.Data.Rat.Floor

namespace Kernway

/-- An `f64`; what is modelled does not tell the two zeros apart. -/
inductive F64
  | nan
  | inf (negative : Bool)
  | finite (value : Rat)

/-- `q * 2 ^ e`. -/
def scaleBy (q : Rat) : Int → Rat
  | .ofNat n => q * (2 ^ n : Nat)
  | .negSucc n => q / (2 ^ (n + 1) : Nat)

def roundEven (q : Rat) : Int :=
  let half := q - q.floor
  if half < 1 / 2 then q.floor
  else if 1 / 2 < half then q.floor + 1
  else if q.floor % 2 = 0 then q.floor else q.floor + 1

/-- The exponent of a positive rational's leading bit. -/
def leadingBit (q : Rat) : Int :=
  let e : Int := Nat.log2 q.num.natAbs - Nat.log2 q.den
  if scaleBy 1 e ≤ q then e else e - 1

/-- The nearest double, the even one of two. -/
def F64.ofRat (q : Rat) : F64 :=
  if q = 0 then .finite 0
  else
    let ulp := max (leadingBit |q| - 52) (-1074)
    let value := scaleBy (roundEven (scaleBy q (-ulp))) ulp
    if scaleBy 1 1024 ≤ |value| then .inf (decide (q < 0)) else .finite value

/-- The end of a number: nothing, or `e` and an integer. -/
def parseExponent : Text → Option Int
  | [] => some 0
  | c :: rest =>
    if c ≠ 'e' ∧ c ≠ 'E' then none
    else
      let (negative, digits) := match rest with
        | '-' :: digits => (true, digits)
        | '+' :: digits => (false, digits)
        | digits => (false, digits)
      if digits = [] ∨ digits.all isAsciiDigit = false then none
      else some (if negative then -(digitsValue digits : Int) else digitsValue digits)

/-- A decimal number without its sign. -/
def parseNumber (s : Text) : Option Rat := do
  let whole := s.takeWhile isAsciiDigit
  let (fraction, rest) := match s.dropWhile isAsciiDigit with
    | '.' :: rest => (rest.takeWhile isAsciiDigit, rest.dropWhile isAsciiDigit)
    | rest => ([], rest)
  if whole = [] ∧ fraction = [] then none
  else
    let exponent ← parseExponent rest
    let digits : Rat := digitsValue (whole ++ fraction)
    match exponent - fraction.length with
    | .ofNat n => return digits * (10 ^ n : Nat)
    | .negSucc n => return digits / (10 ^ (n + 1) : Nat)

/-- `str::parse::<f64>`. -/
def parseF64 (s : Text) : Option F64 :=
  let (negative, rest) := match s with
    | '-' :: rest => (true, rest)
    | '+' :: rest => (false, rest)
    | rest => (false, rest)
  if eqIgnoreAsciiCase rest "nan".toList then some .nan
  else if eqIgnoreAsciiCase rest "inf".toList || eqIgnoreAsciiCase rest "infinity".toList then
    some (.inf negative)
  else (parseNumber rest).map fun q => .ofRat (if negative then -q else q)

/-- `f64::partial_cmp`. -/
def F64.partialCmp : F64 → F64 → Option Ordering
  | nan, _ | _, nan => none
  | inf a, inf b => some (if a = b then .eq else if a then .lt else .gt)
  | inf a, finite _ => some (if a then .lt else .gt)
  | finite _, inf b => some (if b then .gt else .lt)
  | finite p, finite q => some (if p < q then .lt else if q < p then .gt else .eq)

end Kernway
