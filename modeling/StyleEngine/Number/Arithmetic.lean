/-!
# Numbers by their parts

A finite binary64 number is `± significand * 2 ^ exponent`. The parts are read off the bit pattern.
They serve the operations beyond the four basic ones: rounding, wrapping and clamping. Each is exact
up to the one rounding that its last step names.
-/

namespace StyleEngine.Number

/-- What the bit pattern of a number says. -/
inductive Parts where
  | nan
  | infinite (negative : Bool)
  | finite (negative : Bool) (significand : Nat) (exponent : Int)
  deriving DecidableEq, Repr

def signBit (bits : Nat) : Bool := Nat.pow 2 63 ≤ bits
def exponentField (bits : Nat) : Nat := bits / Nat.pow 2 52 % Nat.pow 2 11
def fractionField (bits : Nat) : Nat := bits % Nat.pow 2 52

/-- Exponent field 2047 marks infinity and NaN, 0 the subnormal numbers. -/
def ofBits (bits : Nat) : Parts :=
  match exponentField bits with
  | 2047 => if fractionField bits = 0 then .infinite (signBit bits) else .nan
  | 0 => .finite (signBit bits) (fractionField bits) (-1074)
  | e => .finite (signBit bits) (Nat.pow 2 52 + fractionField bits) (e - 1075)

def parts (x : Float) : Parts := ofBits x.toBits.toNat

example : parts 1.5 = .finite false (3 * Nat.pow 2 51) (-52) := by decide

def withSign (negative : Bool) (x : Float) : Float := if negative then -x else x

/-- The nearest whole number; a half goes away from zero. -/
def roundHalfAway (x : Float) : Float :=
  match parts x with
  | .finite negative significand exponent =>
    if 0 ≤ exponent then x
    else
      let half := Nat.pow 2 ((-exponent).toNat - 1)
      withSign negative (Float.ofNat ((significand + half) / (2 * half)))
  | _ => x

/-- The remainder of a truncating division by a whole number, with the sign of `x`. It is always
exact. -/
def truncatedMod (x : Float) (modulus : Nat) : Float :=
  match parts x with
  | .finite negative significand exponent =>
    let below := Nat.pow 2 (-exponent).toNat
    let value := significand * Nat.pow 2 exponent.toNat
    if value < modulus * below then x
    else withSign negative (Float.ofNat (value % (modulus * below)) / Float.ofNat below)
  | _ => 0.0 / 0.0

/-- The remainder in `0 ≤ r < modulus`, up to rounding of a negative remainder. -/
def wrap (x : Float) (modulus : Nat) : Float :=
  let r := truncatedMod x modulus
  if r < 0.0 then r + Float.ofNat modulus else r

/-- The nearest number in `0 ≤ y ≤ top`. NaN stays NaN. -/
def clamp (x top : Float) : Float :=
  if x < 0.0 then 0.0 else if top < x then top else x

/-- `x` to so many decimal places: scaled, rounded to a whole number and scaled back. -/
def roundPlaces (x : Float) (places : Nat) : Float :=
  let factor := Float.ofNat (Nat.pow 10 places)
  roundHalfAway (x * factor) / factor

example : roundHalfAway (-2.5) = -3.0 := by decide
example : wrap (-90.0) 360 = 270.0 := by decide

end StyleEngine.Number
