import StyleEngine.Number.Arithmetic

/-!
# Shortest decimal text of a number

The text of a finite number has the fewest digits that read back as the same number, and of the
texts of that length the nearest. It is always positional: no exponent, and no point without a
fraction behind it.
-/

namespace StyleEngine.Number

/-- The decimal `coefficient * 10 ^ exponent`. -/
structure Scaled where
  coefficient : Nat
  exponent : Int
  deriving DecidableEq, Repr

/-- The numbers that round to `significand * 2 ^ exponent`, as multiples of `2 ^ (exponent - 2)`.
Below a power of two the lower neighbour is half as far away. The ends belong to the interval iff
the significand is even. -/
structure Basin where
  low : Nat
  centre : Nat
  high : Nat
  closed : Bool

def basin (significand : Nat) (exponent : Int) : Basin where
  low :=
    if significand = Nat.pow 2 52 ∧ -1074 < exponent then 4 * significand - 1
    else 4 * significand - 2
  centre := 4 * significand
  high := 4 * significand + 2
  closed := significand % 2 = 0

/-- Whether `n` lies between the ends. -/
def Basin.holds (b : Basin) (n : Nat) : Bool :=
  if b.closed then b.low ≤ n && n ≤ b.high else b.low < n && n < b.high

def Basin.scale (b : Basin) (k : Nat) : Basin :=
  { b with low := b.low * k, centre := b.centre * k, high := b.high * k }

/-- The multiple of `step` that lies in the interval, is a neighbour of the centre and is nearest to
it; of two equally near ones the larger. -/
def Basin.nearest? (b : Basin) (step : Nat) : Option Nat :=
  let below := b.centre / step
  match b.holds (below * step), b.holds ((below + 1) * step) with
  | true, true =>
    some (if b.centre - below * step < (below + 1) * step - b.centre then below else below + 1)
  | true, false => some below
  | false, true => some (below + 1)
  | false, false => none

/-- The hit on the grid of multiples of `10 ^ place`, if there is one. Numbers count in units of
`2 ^ unit`. -/
def gridHit? (b : Basin) (unit place : Int) : Option Scaled :=
  let scaled := b.scale (Nat.pow 2 unit.toNat * Nat.pow 10 (-place).toNat)
  (scaled.nearest? (Nat.pow 2 (-unit).toNat * Nat.pow 10 place.toNat)).map (⟨·, place⟩)

/-- The first hit on the grids from `place` downwards. -/
def firstHit (b : Basin) (unit : Int) : (grids : Nat) → (place : Int) → Scaled
  | 0, place => ⟨0, place⟩
  | grids + 1, place =>
    match gridHit? b unit place with
    | some hit => hit
    | none => firstHit b unit grids (place - 1)

/-- A power of ten that is no smaller than `significand * 2 ^ exponent`. -/
def topPlace (significand : Nat) (exponent : Int) : Int :=
  (significand.log2 + 1 + exponent) * 30103 / 100000 + 1

/-- Seventeen digits tell all numbers apart, so twenty-two grids below the top are enough. -/
def shortest (significand : Nat) (exponent : Int) : Scaled :=
  firstHit (basin significand exponent) (exponent - 2) 22 (topPlace significand exponent)

def digitText (n : Nat) : List Char := Nat.toDigits 10 n

/-- The text without the zeros at its end. -/
def dropTrailingZeros (cs : List Char) : List Char := (cs.reverse.dropWhile (· == '0')).reverse

/-- Whole part, then a point and the fraction if there is one. -/
def positional (d : Scaled) : List Char :=
  if 0 ≤ d.exponent then digitText (d.coefficient * Nat.pow 10 d.exponent.toNat)
  else
    let places := (-d.exponent).toNat
    let unit := Nat.pow 10 places
    let digits := digitText (d.coefficient % unit)
    let fraction := dropTrailingZeros (List.replicate (places - digits.length) '0' ++ digits)
    digitText (d.coefficient / unit) ++ (if fraction.isEmpty then [] else '.' :: fraction)

def signText (negative : Bool) : List Char := if negative then ['-'] else []

/-- The text of the parts of a number. Both zeros are written `0`. -/
def partsText : Parts → List Char
  | .nan => ['N', 'a', 'N']
  | .infinite negative => signText negative ++ ['i', 'n', 'f']
  | .finite negative significand exponent =>
    if significand = 0 then ['0'] else signText negative ++ positional (shortest significand exponent)

/-- The shortest text that reads back as `x`. -/
def format (x : Float) : String := String.ofList (partsText (parts x))

example : format 0.1 = "0.1" := by decide
example : format (-2.5e-7) = "-0.00000025" := by decide
example : format 1e21 = "1000000000000000000000" := by decide

end StyleEngine.Number
