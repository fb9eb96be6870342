import StyleEngine.Data
import StyleEngine.Number.Decimal

/-!
# Values of YAML scalars

What a plain scalar stands for: nothing, a boolean, an integer, a fraction or, failing these, its
text. An integer that needs more than 64 bits is refused if 128 are enough, and is a fraction
otherwise.
-/

namespace StyleEngine.Yaml

def isNull (s : String) : Bool := ["null", "Null", "NULL", "~"].contains s

def boolean? (s : String) : Option Bool :=
  if ["true", "True", "TRUE"].contains s then some true
  else if ["false", "False", "FALSE"].contains s then some false
  else none

/-- The number that one or more digits spell in a base. -/
def digits? (base : Nat) (cs : List Char) : Option Nat :=
  if cs.isEmpty then none else Number.readDigitsIn? base 0 cs

/-- A number behind the mark of its base. -/
def based? : List Char → Option Nat
  | '0' :: 'x' :: rest => digits? 16 rest
  | '0' :: 'o' :: rest => digits? 8 rest
  | '0' :: 'b' :: rest => digits? 2 rest
  | _ => none

/-- Several digits of which the first is zero. They are a text. -/
def isPadded (cs : List Char) : Bool :=
  1 < cs.length && cs.head? = some '0' && cs.all Char.isDigit

def natural? (cs : List Char) : Option Nat :=
  (based? cs).or (if isPadded cs then none else digits? 10 cs)

/-- An integer with an optional sign. -/
def integer? (s : String) : Option Int :=
  let (negative, cs) := Number.readSign s.toList
  (natural? cs).map fun n => if negative then -(n : Int) else n

/-- An integer of 64 bits. -/
def numeral? (n : Int) : Option Numeral :=
  if n < 0 then (if n.natAbs ≤ Nat.pow 2 63 then some (.negative n) else none)
  else if n.natAbs < Nat.pow 2 64 then some (.natural n.toNat)
  else none

def fits128 (n : Int) : Bool :=
  if n < 0 then n.natAbs ≤ Nat.pow 2 127 else n.natAbs < Nat.pow 2 128

/-- The spellings of infinity and of what is not a number. -/
def isUnbounded (s : String) : Bool :=
  [".inf", ".Inf", ".INF", "+.inf", "+.Inf", "+.INF", "-.inf", "-.Inf", "-.INF",
    ".nan", ".NaN", ".NAN"].contains s

/-- A fraction. Data has no infinity, so null stands for it. -/
def fraction? (s : String) : Option Data :=
  if isUnbounded s then some .null
  else ((Number.ofText? s).filter Float.isFinite).map fun x => .number (.real x)

def fractionOrText (s : String) : Data :=
  if isPadded (Number.readSign s.toList).2 then .text s else (fraction? s).getD (.text s)

/-- What a plain scalar stands for. -/
def plain? (s : String) : Option Data :=
  if s.isEmpty || isNull s then some .null
  else
    match boolean? s, integer? s with
    | some b, _ => some (.boolean b)
    | none, none => some (fractionOrText s)
    | none, some n =>
      match numeral? n with
      | some n => some (.number n)
      | none => if fits128 n then none else some (fractionOrText s)

example : (integer? "-0x1F", integer? "+0o17", integer? "012") = (some (-31), some 15, none) := by
  decide

end StyleEngine.Yaml
