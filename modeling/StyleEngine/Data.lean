import StyleEngine.Keyed

/-!
# Data trees

The value of a JSON or YAML text. Maps keep the order of their members and have distinct keys.
-/

namespace StyleEngine

/-- A number as it was written: integers are told apart from fractions. -/
inductive Numeral where
  | natural (n : Nat)
  | negative (n : Int)
  | real (x : Float)
  deriving DecidableEq

inductive Data where
  | null
  | boolean (b : Bool)
  | number (n : Numeral)
  | text (s : String)
  | list (items : List Data)
  | map (members : List (String × Data))

namespace Data

/-- The kinds of data that messages tell apart. -/
inductive Kind where
  | null
  | boolean
  | number
  | text
  | list
  | map
  deriving DecidableEq, Repr

def Kind.message : Kind → String
  | null => "null"
  | boolean => "a boolean"
  | number => "a number"
  | text => "a string"
  | list => "a list"
  | map => "a map"

def kind : Data → Kind
  | null => .null
  | boolean _ => .boolean
  | number _ => .number
  | text _ => .text
  | list _ => .list
  | map _ => .map

/-- Null and false stand for a member that is left out. -/
def isSkipped : Data → Bool
  | null => true
  | boolean b => !b
  | _ => false

end Data

/-- The nearest binary64 number. -/
def Numeral.toFloat : Numeral → Float
  | natural n => Float.ofNat n
  | negative n => Float.ofInt n
  | real x => x

/-- The largest value of a `$priority`. -/
def maxPriority : Nat := Nat.pow 2 32 - 1

/-- A natural number that is small enough for a priority. -/
def Numeral.priority? : Numeral → Option Nat
  | natural n => if n ≤ maxPriority then some n else none
  | _ => none

end StyleEngine
