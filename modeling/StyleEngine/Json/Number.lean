import StyleEngine.Data
import StyleEngine.Number.Decimal

/-!
# JSON numbers

A whole part without leading zeros, an optional fraction and an optional exponent. Integers of 64
bits stay integers. Every other number is its first digits, as many as fit 64 bits, scaled by a
power of ten in binary64 arithmetic.
-/

namespace StyleEngine.Json

/-- A number as it stands in the text. -/
structure NumberText where
  negative : Bool
  whole : List Char
  fraction : List Char
  exponent? : Option (Bool × List Char)

/-- The digits at the start of a text, and the rest. -/
def spanDigits (cs : List Char) : List Char × List Char :=
  (cs.takeWhile Char.isDigit, cs.dropWhile Char.isDigit)

/-- An optional fraction: a point has at least one digit behind it. -/
def spanFraction? : List Char → Option (List Char × List Char)
  | '.' :: rest =>
    match spanDigits rest with
    | ([], _) => none
    | span => some span
  | cs => some ([], cs)

/-- An optional exponent: its letter has at least one digit behind it. -/
def spanExponent? : List Char → Option (Option (Bool × List Char) × List Char)
  | c :: rest =>
    if c = 'e' || c = 'E' then
      let (negative, rest) := Number.readSign rest
      match spanDigits rest with
      | ([], _) => none
      | (digits, rest) => some (some (negative, digits), rest)
    else some (none, c :: rest)
  | [] => some (none, [])

/-- The digits before the point: a zero stands alone. -/
def spanWhole? (cs : List Char) : Option (List Char × List Char) :=
  match spanDigits cs with
  | ([], _) => none
  | ('0' :: _ :: _, _) => none
  | span => some span

/-- The number at the start of a text, and the rest. -/
def spanNumber? (cs : List Char) : Option (NumberText × List Char) := do
  let (negative, cs) := match cs with
    | '-' :: rest => (true, rest)
    | cs => (false, cs)
  let (whole, cs) ← spanWhole? cs
  let (fraction, cs) ← spanFraction? cs
  let (exponent?, cs) ← spanExponent? cs
  return (⟨negative, whole, fraction, exponent?⟩, cs)

/-- Takes digits as long as the number fits 64 bits; the digits that are left over come back. -/
def absorb (n : Nat) : List Char → Nat × List Char
  | [] => (n, [])
  | c :: rest =>
    let next := 10 * n + Number.digitValue c
    if next < Nat.pow 2 64 then absorb next rest else (n, c :: rest)

def powerOfTen (k : Nat) : Float := Float.ofScientific 1 false k

/-- `x * 10 ^ e` in binary64 arithmetic, unless it is infinite. Four steps of 308 places reach zero
from any number. -/
def scale? : (steps : Nat) → Float → Int → Option Float
  | 0, _, _ => some 0.0
  | steps + 1, x, e =>
    if e.natAbs ≤ 308 then
      if 0 ≤ e then
        let y := x * powerOfTen e.natAbs
        if y.isInf then none else some y
      else some (x / powerOfTen e.natAbs)
    else if x == 0.0 then some x
    else if 0 < e then none
    else scale? steps (x / powerOfTen 308) (e + 308)

/-- The number `± digits * 10 ^ e` with at most 64 bits of digits. -/
def real? (negative : Bool) (digits : Nat) (e : Int) : Option Float :=
  (scale? 4 digits.toUInt64.toFloat e).map fun x => if negative then -x else x

/-- Exponents beyond 31 bits. -/
def isHugeExponent (digits : List Char) : Bool := Nat.pow 2 31 ≤ Number.readDigits digits

/-- A negative zero and integers below the 64-bit range are no integers. -/
def integer (negative : Bool) (n : Nat) : Numeral :=
  if !negative then .natural n
  else if n = 0 || Nat.pow 2 63 < n then .real (-n.toUInt64.toFloat)
  else .negative (-n)

/-- The value of a number text, unless it is out of range. -/
def NumberText.value? (t : NumberText) : Option Numeral :=
  let (whole, left) := absorb 0 t.whole
  if left.isEmpty && t.fraction.isEmpty && t.exponent?.isNone then some (integer t.negative whole)
  else
    let (digits, ignored) := absorb whole t.fraction
    let places : Int := left.length - (t.fraction.length - ignored.length : Nat)
    match t.exponent? with
    | none => (real? t.negative digits places).map .real
    | some (down, exponent) =>
      if isHugeExponent exponent then
        if digits ≠ 0 && !down then none else some (.real (if t.negative then -0.0 else 0.0))
      else
        let e : Int := Number.readDigits exponent
        (real? t.negative digits (if down then places - e else places + e)).map .real

end StyleEngine.Json
