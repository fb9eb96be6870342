/-!
# Digits and decimal texts

Digits are read in bases up to 16, letters in either case. The text of a number is an optional sign,
then `inf`, `infinity` or `nan` in any case, or digits with an optional point and an optional exponent.
There is at least one digit before the exponent and at least one in it. A text is rounded once, to the
nearest number.
-/

namespace StyleEngine.Number

/-- The value of a hexadecimal digit. -/
def hexDigit? (c : Char) : Option Nat :=
  if c.isDigit then some (c.toNat - 48)
  else if 'a' ≤ c && c ≤ 'f' then some (c.toNat - 87)
  else if 'A' ≤ c && c ≤ 'F' then some (c.toNat - 55)
  else none

/-- The value of a digit below `base`. -/
def digitIn? (base : Nat) (c : Char) : Option Nat :=
  (hexDigit? c).filter (· < base)

/-- The number `n` followed by digits in `base`. -/
def readDigitsIn? (base n : Nat) : List Char → Option Nat
  | [] => some n
  | c :: rest => (digitIn? base c).bind fun d => readDigitsIn? base (base * n + d) rest

example : readDigitsIn? 16 0 ['1', 'f', 'F'] = some 511 := by decide
example : readDigitsIn? 8 0 ['8'] = none := by decide

/-- What a decimal text says. -/
inductive Decimal where
  | nan
  | infinite (negative : Bool)
  | finite (negative : Bool) (digits : Nat) (exponent : Int)
  deriving DecidableEq, Repr

def digitValue (c : Char) : Nat := c.toNat - 48

def readDigits (cs : List Char) : Nat := cs.foldl (fun n c => 10 * n + digitValue c) 0

/-- A sign at the start of a text, and the rest. -/
def readSign : List Char → Bool × List Char
  | '-' :: rest => (true, rest)
  | '+' :: rest => (false, rest)
  | cs => (false, cs)

/-- The exponent: nothing, or `e`, an optional sign and digits. -/
def readExponent? : List Char → Option Int
  | [] => some 0
  | c :: rest =>
    if c = 'e' || c = 'E' then
      let (negative, digits) := readSign rest
      if !digits.isEmpty && digits.all Char.isDigit then
        some (if negative then -(readDigits digits : Int) else readDigits digits)
      else none
    else none

/-- Digits, an optional point with digits, an exponent. -/
def readUnsigned? (negative : Bool) (cs : List Char) : Option Decimal :=
  let whole := cs.takeWhile Char.isDigit
  let (fraction, rest) :=
    match cs.dropWhile Char.isDigit with
    | '.' :: rest => (rest.takeWhile Char.isDigit, rest.dropWhile Char.isDigit)
    | rest => ([], rest)
  if whole.isEmpty && fraction.isEmpty then none
  else (readExponent? rest).map fun e => .finite negative (readDigits (whole ++ fraction)) (e - fraction.length)

def readDecimal? (s : String) : Option Decimal :=
  let (negative, cs) := readSign s.toList
  match String.ofList (cs.map Char.toLower) with
  | "nan" => some .nan
  | "inf" => some (.infinite negative)
  | "infinity" => some (.infinite negative)
  | _ => readUnsigned? negative cs

/-- The place of the first digit: `n * 10 ^ e` is below `10 ^ magnitude n e`. -/
def magnitude (digits : Nat) (exponent : Int) : Int := (Nat.toDigits 10 digits).length + exponent

/-- Beyond these magnitudes every number is infinite or zero. -/
def Decimal.toFloat : Decimal → Float
  | .nan => 0.0 / 0.0
  | .infinite negative => if negative then -1.0 / 0.0 else 1.0 / 0.0
  | .finite negative digits exponent =>
    let size :=
      if digits = 0 || magnitude digits exponent < -400 then 0.0
      else if 400 < magnitude digits exponent then 1.0 / 0.0
      else Float.ofScientific digits (exponent < 0) exponent.natAbs
    if negative then -size else size

/-- Rounded to single precision. -/
def Decimal.toFloat32 : Decimal → Float32
  | .nan => 0.0 / 0.0
  | .infinite negative => if negative then -1.0 / 0.0 else 1.0 / 0.0
  | .finite negative digits exponent =>
    let size :=
      if digits = 0 || magnitude digits exponent < -100 then 0.0
      else if 100 < magnitude digits exponent then 1.0 / 0.0
      else Float32.ofScientific digits (exponent < 0) exponent.natAbs
    if negative then -size else size

/-- The number that a text spells. -/
def ofText? (s : String) : Option Float := (readDecimal? s).map Decimal.toFloat

/-- The number that a text spells in single precision. -/
def single? (s : String) : Option Float32 := (readDecimal? s).map Decimal.toFloat32

example : ofText? "-.5e1" = some (-5.0) := by decide
example : ofText? "." = none := by decide
example : ofText? "1e400" = ofText? "INF" := by decide

end StyleEngine.Number
